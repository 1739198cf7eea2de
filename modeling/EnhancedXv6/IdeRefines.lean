
import EnhancedXv6.Ide
import Mathlib.Data.Fintype.Card

namespace EnhancedXv6.Ide

open Function (update update_comm update_eq_self update_idem update_of_ne update_self)
open Transition Machine LinkedQueue

namespace Mem

variable {P : Type*} (m : Mem P) {i j : Fin NBUF} (b : Buf P) (e : String)

theorem sync_buf_of_ne (h : j ≠ i) : (m.sync i).buf j = m.buf j := by
  unfold sync
  split_ifs <;> exact update_of_ne h _ _

theorem sync_holder (i j : Fin NBUF) : ((m.sync i).buf j).holder = (m.buf j).holder := by
  by_cases e : j = i
  · subst e
    unfold sync
    split_ifs <;> simp [setBuf]
  · rw [m.sync_buf_of_ne e]

theorem sync_setBuf (h : j ≠ i) : (m.setBuf j b).sync i = (m.sync i).setBuf j b := by
  have hi : (m.setBuf j b).buf i = m.buf i := update_of_ne (Ne.symm h) _ _
  unfold sync
  rw [hi]
  split_ifs
  · simp only [setBuf, update_comm h]
  · simp only [setBuf, update_comm h]

theorem sync_fail (i : Fin NBUF) : (m.fail e).sync i = (m.sync i).fail e := by
  unfold sync
  split_ifs <;> first | rfl | contradiction

def flush (q : List (Fin NBUF)) : Mem P := q.foldl sync m

variable {q : List (Fin NBUF)}

theorem flush_buf (h : j ∉ q) : (m.flush q).buf j = m.buf j := by
  induction q generalizing m with
  | nil => rfl
  | cons i q ih =>
    obtain ⟨hi, hq⟩ := not_or.mp (mt List.mem_cons.mpr h)
    exact (ih (m.sync i) hq).trans (m.sync_buf_of_ne hi)

theorem flush_holder (q : List (Fin NBUF)) (j : Fin NBUF) : ((m.flush q).buf j).holder = (m.buf j).holder := by
  induction q generalizing m with
  | nil => rfl
  | cons i q ih => exact (ih (m.sync i)).trans (m.sync_holder i j)

theorem flush_setBuf (h : j ∉ q) : (m.setBuf j b).flush q = (m.flush q).setBuf j b := by
  induction q generalizing m with
  | nil => rfl
  | cons i q ih =>
    obtain ⟨hi, hq⟩ := not_or.mp (mt List.mem_cons.mpr h)
    change ((m.setBuf j b).sync i).flush q = ((m.sync i).flush q).setBuf j b
    rw [m.sync_setBuf b hi, ih (m.sync i) hq]

theorem flush_fail (q : List (Fin NBUF)) : (m.fail e).flush q = (m.flush q).fail e := by
  induction q generalizing m with
  | nil => rfl
  | cons i q ih =>
    change ((m.fail e).sync i).flush q = ((m.sync i).flush q).fail e
    rw [sync_fail, ih (m.sync i)]

theorem flush_panic (q : List (Fin NBUF)) : (m.flush q).panic = m.panic := by
  induction q generalizing m with
  | nil => rfl
  | cons i q ih =>
    refine (ih (m.sync i)).trans ?_
    unfold sync
    split_ifs <;> rfl

theorem flush_append (q : List (Fin NBUF)) (i : Fin NBUF) : m.flush (q ++ [i]) = (m.flush q).sync i := by
  unfold flush
  rw [List.foldl_append]
  rfl

end Mem

def State.mem {P : Type*} (s : State P) : Mem P := ⟨s.disk 1, s.buf, s.panic⟩

variable {P : Type*} {s t : State P} {q : List (Fin NBUF)} {p : P} {i j : Fin NBUF}

theorem idestart_proc (s : State P) (o : Option (Fin NBUF)) : (s.idestart o).proc = s.proc := by
  unfold State.idestart
  split
  · rfl
  · split_ifs <;> rfl

theorem complete_proc (s : State P) (c : Command) : (s.complete c).proc = s.proc := by
  unfold State.complete
  split <;> rfl

theorem waits_ideintr : (s.ideintr.proc p).Waits i ↔ (s.proc p).Waits i := by
  unfold State.ideintr
  split
  · rfl
  · dsimp only
    split_ifs
    · rw [idestart_proc]
      exact Proc.waits_wakeup
    · exact Proc.waits_wakeup

def Serving (s : State P) : List (Fin NBUF) → Prop
  | [] => s.drive = .idle
  | i :: _ => s.drive = .busy (.ofBuf (s.buf i)) ∨
      if (s.buf i).dirty then s.drive = .done none ∧ s.disk 1 (s.buf i).blockno = (s.buf i).data
      else s.drive = .done (some (s.disk 1 (s.buf i).blockno))

theorem Serving.of_eq (h : Serving s q) (hdrive : t.drive = s.drive) (hdisk : t.disk = s.disk) (hbuf : ∀ i ∈ q, t.buf i = s.buf i) :
    Serving t q := by
  cases q with
  | nil => exact hdrive.trans h
  | cons i q =>
    rw [Serving, hdrive, hdisk, hbuf i List.mem_cons_self]
    exact h

structure Queued (s : State P) (q : List (Fin NBUF)) : Prop where
  disk1 : s.havedisk1 = true
  holds : s.idequeue.Holds q
  nodup : q.Nodup
  owner : ∀ i ∈ q, ∃ p, (s.buf i).holder = some p ∧ (s.proc p).Waits i
  range : ∀ i ∈ q, (s.buf i).dev = 1 ∧ (s.buf i).blockno < FSSIZE
  pending : ∀ i ∈ q, synced (s.buf i) = false
  locked : ∀ p i, (s.proc p).Waits i → (s.buf i).holder = some p
  served : ∀ p i, (s.proc p).Waits i → i ∉ q → synced (s.buf i) = true
  serving : Serving s q

namespace Queued

theorem not_mem_of_idle (h : Queued s q) (hp : s.proc p = .idle) (hh : (s.buf i).holder = some p) : i ∉ q := by
  intro hi
  obtain ⟨r, hr, hw⟩ := h.owner i hi
  rw [hh] at hr
  cases hr
  rw [hp] at hw
  rcases hw with hw | hw <;> cases hw

theorem not_mem_of_free (h : Queued s q) (hf : s.Free i) : i ∉ q := by
  intro hi
  obtain ⟨r, hr, -⟩ := h.owner i hi
  exact h.not_mem_of_idle (hf r hr) hr hi

theorem length_lt (h : Queued s q) : q.length < NBUF + 1 := by
  have := h.nodup.length_le_card
  rw [Fintype.card_fin] at this
  omega

theorem edit (h : Queued s q) (hf : s.Free i) (b : Buf P) : Queued (s.setBuf i b) q := by
  have hi := h.not_mem_of_free hf
  have hbuf : ∀ j ∈ q, (s.setBuf i b).buf j = s.buf j := by
    intro j hj
    exact update_of_ne (by rintro rfl; exact hi hj) _ _
  have hwait : ∀ r j, (s.proc r).Waits j → (s.setBuf i b).buf j = s.buf j := by
    intro r j hw
    apply update_of_ne
    rintro rfl
    rw [hf r (h.locked r j hw)] at hw
    rcases hw with hw | hw <;> cases hw
  refine ⟨h.disk1, h.holds, h.nodup, ?_, ?_, ?_, ?_, ?_, ?_⟩
  · intro j hj
    rw [hbuf j hj]
    exact h.owner j hj
  · intro j hj
    rw [hbuf j hj]
    exact h.range j hj
  · intro j hj
    rw [hbuf j hj]
    exact h.pending j hj
  · intro r j hw
    rw [hwait r j hw]
    exact h.locked r j hw
  · intro r j hw hj
    rw [hwait r j hw]
    exact h.served r j hw hj
  · exact h.serving.of_eq rfl rfl hbuf

theorem fail (h : Queued s q) (e : String) : Queued (s.fail e) q :=
  ⟨h.disk1, h.holds, h.nodup, h.owner, h.range, h.pending, h.locked, h.served, h.serving.of_eq rfl rfl (fun _ _ => rfl)⟩

theorem procs (h : Queued s q) (f : P → Proc) (hold : ∀ r j, j ∈ q → (s.proc r).Waits j → (f r).Waits j)
    (hnew : ∀ r j, (f r).Waits j → (s.proc r).Waits j) : Queued { s with proc := f } q := by
  refine ⟨h.disk1, h.holds, h.nodup, ?_, h.range, h.pending, ?_, ?_, h.serving.of_eq rfl rfl (fun _ _ => rfl)⟩
  · intro j hj
    obtain ⟨r, hr, hw⟩ := h.owner j hj
    exact ⟨r, hr, hold r j hj hw⟩
  · exact fun r j hw => h.locked r j (hnew r j hw)
  · exact fun r j hw => h.served r j (hnew r j hw)

theorem complete (h : Queued s q) {c : Command} (hd : s.drive = .busy c) :
    Queued (s.complete c) q ∧ (s.complete c).mem.flush q = s.mem.flush q := by
  have hs := h.serving
  cases q with
  | nil =>
    rw [Serving, hd] at hs
    cases hs
  | cons i q =>
    obtain ⟨hdev, hblock⟩ := h.range i List.mem_cons_self
    obtain rfl : c = .ofBuf (s.buf i) := by
      rcases hs with hs | hs
      · rw [hd] at hs
        cases hs
        rfl
      · split_ifs at hs
        · rw [hd] at hs
          cases hs.1
        · rw [hd] at hs
          cases hs
    have hdrive : (Command.ofBuf (s.buf i)).drive = 1 := by rw [Command.drive_ofBuf, hdev]
    have hlba := Command.lba_ofBuf hblock
    by_cases hdirty : (s.buf i).dirty = true
    · have hc : s.complete (.ofBuf (s.buf i)) = { s with
          disk := update s.disk 1 (update (s.disk 1) (s.buf i).blockno (s.buf i).data), drive := .done none } := by
        rw [State.complete, hdrive, hlba]
        simp only [Command.ofBuf, hdirty, if_true]
      rw [hc]
      refine ⟨⟨h.disk1, h.holds, h.nodup, h.owner, h.range, h.pending, h.locked, h.served, ?_⟩, ?_⟩
      · right
        rw [if_pos hdirty]
        refine ⟨rfl, ?_⟩
        dsimp only
        rw [update_self, update_self]
      · -- the request of the queue writes the same block once more
        change ((State.mem _).sync i).flush q = (s.mem.sync i).flush q
        congr 1
        unfold Mem.sync State.mem
        dsimp only
        rw [if_pos hdirty, if_pos hdirty, update_self, update_idem]
    · have hc : s.complete (.ofBuf (s.buf i)) = { s with drive := .done (some (s.disk 1 (s.buf i).blockno)) } := by
        rw [State.complete, hdrive, hlba]
        simp only [Command.ofBuf, hdirty]
        rfl
      rw [hc]
      refine ⟨⟨h.disk1, h.holds, h.nodup, h.owner, h.range, h.pending, h.locked, h.served, ?_⟩, rfl⟩
      right
      rw [if_neg hdirty]

theorem serve_mem (h : Queued s (i :: q)) (hd : ∃ r, s.drive = .done r) : (s.serve i).mem = s.mem.sync i := by
  have hs : if (s.buf i).dirty then s.drive = .done none ∧ s.disk 1 (s.buf i).blockno = (s.buf i).data
      else s.drive = .done (some (s.disk 1 (s.buf i).blockno)) := by
    rcases h.serving with hb | hb
    · obtain ⟨r, hr⟩ := hd
      rw [hr] at hb
      cases hb
    · exact hb
  unfold State.serve State.mem Mem.sync
  dsimp only
  by_cases hdirty : (s.buf i).dirty = true
  · rw [if_pos hdirty] at hs
    rw [if_pos hdirty, if_pos hdirty, Mem.setBuf]
    dsimp only
    have hsame : update (s.disk 1) (s.buf i).blockno (s.buf i).data = s.disk 1 := by rw [← hs.2, update_eq_self]
    rw [hsame]
  · rw [if_neg hdirty] at hs
    have hclean : (s.buf i).dirty = false := by simpa using hdirty
    rw [if_neg hdirty, if_neg hdirty, Mem.setBuf, hs]
    dsimp only [State.insl]
    rw [hclean]

theorem serve (h : Queued s (i :: q)) {d : Drive} (hd : Serving { s.serve i with drive := d } q) :
    Queued { s.serve i with drive := d } q := by
  obtain ⟨hi, hq⟩ := List.nodup_cons.mp h.nodup
  have hne : ∀ j ∈ q, j ≠ i := by
    rintro j hj rfl
    exact hi hj
  have hbuf : ∀ j ≠ i, (s.serve i).buf j = s.buf j := fun j hj => update_of_ne hj _ _
  have hholder : ∀ j, ((s.serve i).buf j).holder = (s.buf j).holder := by
    intro j
    by_cases e : j = i
    · subst e
      simp [State.serve]
    · rw [hbuf j e]
  refine ⟨h.disk1, h.holds.tail, hq, ?_, ?_, ?_, ?_, ?_, hd⟩
  · intro j hj
    obtain ⟨r, hr, hw⟩ := h.owner j (List.mem_cons_of_mem _ hj)
    exact ⟨r, (hholder j).trans hr, Proc.waits_wakeup.mpr hw⟩
  · intro j hj
    dsimp only
    rw [hbuf j (hne j hj)]
    exact h.range j (List.mem_cons_of_mem _ hj)
  · intro j hj
    dsimp only
    rw [hbuf j (hne j hj)]
    exact h.pending j (List.mem_cons_of_mem _ hj)
  · intro r j hw
    exact (hholder j).trans (h.locked r j (Proc.waits_wakeup.mp hw))
  · intro r j hw hj
    by_cases e : j = i
    · subst e
      simp [State.serve, synced]
    · dsimp only
      rw [hbuf j e]
      exact h.served r j (Proc.waits_wakeup.mp hw) (fun hm => (List.mem_cons.mp hm).elim e hj)

theorem ideintr (h : Queued s (i :: q)) (hd : ∃ r, s.drive = .done r) :
    Queued s.ideintr q ∧ s.ideintr.mem = s.mem.sync i := by
  have hmem := h.serve_mem hd
  have hhead : s.idequeue.head = some i := h.holds.head_eq
  have hnext : (s.serve i).idequeue.head = q.head? := Queue.Holds.head_eq h.holds.tail
  have he : s.ideintr = if (s.serve i).idequeue.head ≠ none then (s.serve i).idestart (s.serve i).idequeue.head else s.serve i := by
    rw [State.ideintr, hhead]
  rw [he, hnext]
  cases q with
  | nil => exact ⟨h.serve rfl, hmem⟩
  | cons j q =>
    have hj : (s.serve i).buf j = s.buf j := by
      apply update_of_ne
      rintro rfl
      exact (List.nodup_cons.mp h.nodup).1 List.mem_cons_self
    have hblock := (h.range j (List.mem_cons_of_mem _ List.mem_cons_self)).2
    have hstart : (s.serve i).idestart (some j) = { s.serve i with drive := .busy (.ofBuf ((s.serve i).buf j)) } := by
      rw [State.idestart, hj, if_neg (Nat.not_le.mpr hblock), if_neg (by decide)]
    rw [List.head?_cons, if_pos (by simp), hstart]
    exact ⟨h.serve (.inl rfl), hmem⟩

variable [DecidableEq P]

theorem append (h : Queued s q) (hp : s.proc p = .idle) (hh : (s.buf i).holder = some p) (hsync : synced (s.buf i) = false)
    (hdev : (s.buf i).dev = 1) (hblock : (s.buf i).blockno < FSSIZE) :
    ∃ t, s.iderw p i = some t ∧ Queued t (q ++ [i]) ∧ t.mem = s.mem ∧ t.proc = update s.proc p (.sleep i) := by
  have hi := h.not_mem_of_idle hp hh
  obtain ⟨r, hr, hholds⟩ := h.holds.append h.nodup hi h.length_lt
  have hstep : s.iderw p i = some ((if r.head = some i then State.idestart { s with idequeue := r } (some i)
      else { s with idequeue := r }).await p i) := by
    rw [State.iderw, if_neg (not_not.mpr hh), if_neg (by simp [hsync]), if_neg (by simp [h.disk1]), hr]
    rfl
  have hnew : ∀ (d : Drive), Serving { s with idequeue := r, drive := d } (q ++ [i]) →
      Queued { s with idequeue := r, drive := d, proc := update s.proc p (.sleep i) } (q ++ [i]) := by
    intro d hd
    have hother : ∀ r j, r ≠ p → (update s.proc p (.sleep i) r).Waits j → (s.proc r).Waits j := by
      intro r j hr hw
      rwa [update_of_ne hr] at hw
    refine ⟨h.disk1, hholds, ?_, ?_, ?_, ?_, ?_, ?_, hd.of_eq rfl rfl (fun _ _ => rfl)⟩
    · exact List.nodup_append.mpr ⟨h.nodup, List.nodup_singleton i, by
        rintro a ha b hb rfl
        exact hi (List.mem_singleton.mp hb ▸ ha)⟩
    · intro j hj
      rcases List.mem_append.mp hj with hj | hj
      · obtain ⟨r, hr, hw⟩ := h.owner j hj
        refine ⟨r, hr, ?_⟩
        dsimp only
        rw [update_of_ne]
        · exact hw
        · rintro rfl
          rw [hp] at hw
          rcases hw with hw | hw <;> cases hw
      · obtain rfl := List.mem_singleton.mp hj
        exact ⟨p, hh, .inl (update_self _ _ _)⟩
    · intro j hj
      rcases List.mem_append.mp hj with hj | hj
      · exact h.range j hj
      · obtain rfl := List.mem_singleton.mp hj
        exact ⟨hdev, hblock⟩
    · intro j hj
      rcases List.mem_append.mp hj with hj | hj
      · exact h.pending j hj
      · obtain rfl := List.mem_singleton.mp hj
        exact hsync
    · intro r j hw
      by_cases e : r = p
      · subst e
        dsimp only at hw
        rw [update_self] at hw
        rcases hw with hw | hw <;> cases hw
        exact hh
      · exact h.locked r j (hother r j e hw)
    · intro r j hw hj
      by_cases e : r = p
      · subst e
        dsimp only at hw
        rw [update_self] at hw
        rcases hw with hw | hw <;> cases hw
        exact absurd (List.mem_append_right _ (List.mem_singleton_self _)) hj
      · exact h.served r j (hother r j e hw) (fun hm => hj (List.mem_append_left _ hm))
  have hwait : ∀ d, State.await { s with idequeue := r, drive := d } p i =
      { s with idequeue := r, drive := d, proc := update s.proc p (.sleep i) } := by
    intro d
    rw [State.await]
    dsimp only
    rw [hsync]
    rfl
  have hs := h.serving
  cases q with
  | nil =>
    have hhead : r.head = some i := hholds.head_eq
    rw [if_pos hhead, State.idestart, if_neg (Nat.not_le.mpr hblock), if_neg (by decide), hwait] at hstep
    exact ⟨_, hstep, hnew _ (.inl rfl), rfl, rfl⟩
  | cons j q =>
    have hhead : r.head ≠ some i := by
      rw [hholds.head_eq]
      intro e
      cases e
      exact hi List.mem_cons_self
    rw [if_neg hhead] at hstep
    exact ⟨_, hstep.trans (congrArg some (hwait s.drive)), hnew _ hs, rfl, rfl⟩

end Queued

structure Requests (P : Type*) where
  appended : List (Fin NBUF) := []
  served : List (Fin NBUF) := []
  ticket : P → ℕ := fun _ => 0

structure Matches (s : State P × Requests P) (m : Mem P) (q : List (Fin NBUF)) : Prop where
  queued : Queued s.1 q
  mem : m = s.1.mem.flush q
  order : s.2.appended = s.2.served ++ q
  ticket : ∀ p i, (s.1.proc p).Waits i → s.2.appended[s.2.ticket p]? = some i

namespace Matches

variable {a : State P × Requests P} {m : Mem P}

theorem panic_none (h : Matches a m q) (hn : a.1.panic.isSome = false) : m.panic.isSome = false := by
  rw [h.mem, Mem.flush_panic]
  exact hn

theorem fail (h : Matches a m q) (e : String) : Matches (a.1.fail e, a.2) (m.fail e) q := by
  refine ⟨h.queued.fail e, ?_, h.order, h.ticket⟩
  rw [h.mem]
  exact (Mem.flush_fail _ e q).symm

theorem edit (h : Matches a m q) (hf : a.1.Free i) (f : Buf P) : Matches (a.1.setBuf i f, a.2) (m.setBuf i f) q := by
  refine ⟨h.queued.edit hf f, ?_, h.order, h.ticket⟩
  rw [h.mem]
  exact (Mem.flush_setBuf _ f (h.queued.not_mem_of_free hf)).symm

theorem initial (disk : ℕ → ℕ → Block) (buf : Fin NBUF → Buf P) :
    Matches (({ disk := disk, buf := buf }, {}) : State P × Requests P) { memdisk := disk 1, buf := buf } [] := by
  have hw : ∀ i, ¬ Proc.idle.Waits i := by
    rintro i (h | h) <;> cases h
  refine ⟨⟨rfl, rfl, List.nodup_nil, nofun, nofun, nofun, ?_, ?_, rfl⟩, rfl, rfl, ?_⟩
  · exact fun p i h => absurd h (hw i)
  · exact fun p i h => absurd h (hw i)
  · exact fun p i h => absurd h (hw i)

end Matches

variable [DecidableEq P]

def record (g : Requests P) (s : State P) (l : Label P) (t : State P) : Requests P :=
  match l with
  | .iderw p i =>
    if t.panic.isSome then g
    else { g with appended := g.appended ++ [i], ticket := Function.update g.ticket p g.appended.length }
  | .ideintr => { g with served := g.served ++ s.idequeue.head.toList }
  | _ => g

def requestMachine (P : Type*) [DecidableEq P] : Machine (State P × Requests P) (Label P) := (machine P).history {} record

namespace Matches

variable {disksize : ℕ} {a b : State P × Requests P} {m m' : Mem P} {l : Label P}

theorem run_one {x : Mem.Label P} (hm : m.step disksize x = some m') : (Mem.machine P disksize).run m [x] = some m' := by
  rw [run_cons]
  change (m.step disksize x).bind _ = _
  rw [hm]
  rfl

theorem iderw (h : Matches a m q) (hn : a.1.panic.isSome = false) (hc : InRange disksize a.1 (.iderw p i))
    (hp : a.1.proc p = .idle) (hs : a.1.iderw p i = some t) (hg : b = (t, record a.2 a.1 (.iderw p i) t)) :
    ∃ m', m.step disksize (.iderw p i) = some m' ∧ ∃ r, Matches b m' r := by
  obtain ⟨hdev, hblock, hsize⟩ := hc
  have hstep : m.step disksize (.iderw p i) = some (m.iderw disksize p i) := by
    rw [Mem.step, if_neg (by simp [h.panic_none hn])]
  refine ⟨_, hstep, ?_⟩
  have hholder : (m.buf i).holder = (a.1.buf i).holder := by
    rw [h.mem]
    exact Mem.flush_holder _ q i
  have hfail : ∀ e, record a.2 a.1 (.iderw p i) (a.1.fail e) = a.2 := fun e => rfl
  unfold State.iderw at hs
  unfold Mem.iderw
  by_cases hh : (a.1.buf i).holder = some p
  · have hi := h.queued.not_mem_of_idle hp hh
    have hbuf : m.buf i = a.1.buf i := by
      rw [h.mem]
      exact Mem.flush_buf _ hi
    rw [if_neg (not_not.mpr (hholder.trans hh)), hbuf]
    rw [if_neg (not_not.mpr hh)] at hs
    by_cases hsync : synced (a.1.buf i) = true
    · rw [if_pos hsync] at hs ⊢
      cases hs
      rw [hg, hfail]
      exact ⟨q, h.fail _⟩
    · have hf : synced (a.1.buf i) = false := by simpa using hsync
      obtain ⟨u, hu, hqueued, hmem, hproc⟩ := h.queued.append hp hh hf hdev hblock
      rw [State.iderw, if_neg (not_not.mpr hh)] at hu
      cases hs.symm.trans hu
      rw [if_neg hsync, if_neg (not_not.mpr hdev), if_neg (Nat.not_le.mpr hsize)]
      have hpan : t.panic = a.1.panic := congrArg Mem.panic hmem
      have hrec : record a.2 a.1 (.iderw p i) t =
          { a.2 with appended := a.2.appended ++ [i], ticket := update a.2.ticket p a.2.appended.length } := by
        unfold record
        dsimp only
        rw [hpan, if_neg (by simp [hn])]
      rw [hg, hrec]
      refine ⟨q ++ [i], hqueued, ?_, ?_, ?_⟩
      · dsimp only
        rw [hmem, Mem.flush_append, h.mem]
      · dsimp only
        rw [h.order, List.append_assoc]
      · intro r j hw
        dsimp only at hw ⊢
        rw [hproc] at hw
        by_cases e : r = p
        · subst e
          rw [update_self] at hw
          rcases hw with hw | hw <;> cases hw
          rw [update_self, List.getElem?_append_right (le_refl _), Nat.sub_self]
          rfl
        · rw [update_of_ne e] at hw ⊢
          have ht := h.ticket r j hw
          rw [List.getElem?_append_left (List.getElem?_eq_some_iff.mp ht).1]
          exact ht
  · rw [if_pos hh] at hs
    cases hs
    rw [if_pos (by rw [hholder]; exact hh), hg, hfail]
    exact ⟨q, h.fail _⟩

theorem ideintr (h : Matches a m q) (hd : (∃ r, a.1.drive = .done r) ∨ a.1.idequeue.head = none) :
    ∃ r, Matches (a.1.ideintr, record a.2 a.1 .ideintr a.1.ideintr) m r := by
  cases q with
  | nil =>
    have hhead : a.1.idequeue.head = none := h.queued.holds.head_eq
    have ht : a.1.ideintr = a.1 := by rw [State.ideintr, hhead]
    refine ⟨[], ht.symm ▸ h.queued, ht.symm ▸ h.mem, ?_, ht.symm ▸ h.ticket⟩
    rw [record, hhead]
    simpa using h.order
  | cons i q =>
    have hhead : a.1.idequeue.head = some i := h.queued.holds.head_eq
    have hdone : ∃ r, a.1.drive = .done r := by
      rcases hd with hd | hd
      · exact hd
      · rw [hhead] at hd
        cases hd
    obtain ⟨hqueued, hmem⟩ := h.queued.ideintr hdone
    refine ⟨q, hqueued, ?_, ?_, ?_⟩
    · rw [h.mem]
      dsimp only
      rw [hmem]
      rfl
    · rw [record, hhead, h.order]
      simp
    · intro p j hw
      exact h.ticket p j (waits_ideintr.mp hw)

theorem setProc (h : Matches a m q) {c : Proc} (hold : ∀ j, (a.1.proc p).Waits j → j ∈ q → c.Waits j)
    (hnew : ∀ j, c.Waits j → (a.1.proc p).Waits j) : Matches (a.1.setProc p c, a.2) m q := by
  have hback : ∀ r j, (update a.1.proc p c r).Waits j → (a.1.proc r).Waits j := by
    intro r j hw
    by_cases e : r = p
    · subst e
      rw [update_self] at hw
      exact hnew j hw
    · rwa [update_of_ne e] at hw
  refine ⟨h.queued.procs _ ?_ hback, h.mem, h.order, fun r j hw => h.ticket r j (hback r j hw)⟩
  intro r j hj hw
  by_cases e : r = p
  · subst e
    rw [update_self]
    exact hold j hw hj
  · rwa [update_of_ne e]

theorem next (h : Matches a m q) (hc : InRange disksize a.1 l) (hs : (requestMachine P).next a l = some b) :
    ∃ m', (Mem.machine P disksize).run m l.mem.toList = some m' ∧ ∃ r, Matches b m' r := by
  obtain ⟨hstep, hg⟩ := history_next hs
  obtain ⟨hn, hst⟩ := step_cases hstep
  obtain ⟨t, g⟩ := b
  dsimp only at hst hg
  subst hg
  cases hst with
  | iderw hp ht =>
    obtain ⟨m', hm, hr⟩ := h.iderw hn hc hp ht rfl
    exact ⟨m', run_one hm, hr⟩
  | @edit i f hf =>
    refine ⟨m.setBuf i f, run_one ?_, q, h.edit hf f⟩
    rw [Mem.step, if_neg (by simp [h.panic_none hn])]
  | complete hd =>
    obtain ⟨hq, hm⟩ := h.queued.complete hd
    exact ⟨m, rfl, q, hq, h.mem.trans hm.symm, h.order, fun p i hw => h.ticket p i (complete_proc a.1 _ ▸ hw)⟩
  | ideintr hd => exact ⟨m, rfl, h.ideintr (.inl ⟨_, hd⟩)⟩
  | spurious hq => exact ⟨m, rfl, h.ideintr (.inr hq)⟩
  | @kill p i hp =>
    refine ⟨m, rfl, q, h.setProc ?_ ?_⟩
    · rw [hp]
      rintro j (hw | hw) - <;> cases hw
      exact .inr rfl
    · rw [hp]
      rintro j (hw | hw) <;> cases hw
      exact .inl rfl
  | @resume p i hp =>
    refine ⟨m, rfl, q, h.setProc ?_ ?_⟩
    · rw [hp]
      rintro j (hw | hw) hj <;> cases hw
      rw [h.queued.pending i hj]
      exact .inl rfl
    · rw [hp]
      intro j hw
      split_ifs at hw
      · rcases hw with hw | hw <;> cases hw
      · rcases hw with hw | hw <;> cases hw
        exact .inr rfl

end Matches

theorem iderw_proc (hs : s.iderw p i = some t) {r : P} (hr : r ≠ p) : t.proc r = s.proc r := by
  unfold State.iderw at hs
  split_ifs at hs
  · cases hs
    rfl
  · cases hs
    rfl
  · cases hs
    rfl
  · obtain ⟨u, -, rfl⟩ := Option.map_eq_some_iff.mp hs
    refine (update_of_ne hr _ _).trans ?_
    split_ifs
    · rw [idestart_proc]
    · rfl

theorem Steps.waits {l : Label P} (hs : Steps s l t) (hw : (s.proc p).Waits i) (hp : t.proc p = .idle) :
    synced (s.buf i) = true := by
  have hidle : ∀ c : Proc, c.Waits i → c ≠ .idle := by
    rintro c (rfl | rfl) <;> exact nofun
  cases hs with
  | @iderw r j _ hr ht =>
    have hne : p ≠ r := by
      rintro rfl
      exact hidle _ hw hr
    rw [iderw_proc ht hne] at hp
    exact absurd hp (hidle _ hw)
  | edit hf => exact absurd hp (hidle _ hw)
  | complete hd =>
    rw [complete_proc] at hp
    exact absurd hp (hidle _ hw)
  | ideintr hd => exact absurd hp (hidle _ (waits_ideintr.mpr hw))
  | spurious hq => exact absurd hp (hidle _ (waits_ideintr.mpr hw))
  | @kill r j hr =>
    change update s.proc r (.woken j) p = .idle at hp
    by_cases e : p = r
    · rw [e, update_self] at hp
      cases hp
    · rw [update_of_ne e] at hp
      exact absurd hp (hidle _ hw)
  | @resume r j hr =>
    change update s.proc r _ p = .idle at hp
    by_cases e : p = r
    · subst e
      rw [hr] at hw
      rcases hw with hw | hw <;> cases hw
      rw [update_self] at hp
      split_ifs at hp with hsync
      exact hsync
    · rw [update_of_ne e] at hp
      exact absurd hp (hidle _ hw)

end EnhancedXv6.Ide
