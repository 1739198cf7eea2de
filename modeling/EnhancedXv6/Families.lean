import EnhancedXv6.Writes
import EnhancedXv6.WaitTimes

namespace EnhancedXv6

open Function (update update_of_ne update_self)
open ProcTable Table Scheduler Transition Machine

namespace ProcTable

def ProcState.Started (s : ProcState) : Prop := s ≠ .unused ∧ s ≠ .embryo

def ProcState.Alive (s : ProcState) : Prop := s.Started ∧ s ≠ .zombie

def Proc.kin (r : Proc) : Option Slot × Option Chan := (r.parent, r.chan)

instance : IgnoresState Proc.kin := by constructor <;> intros <;> rfl
instance : IgnoresQueue Proc.kin := by constructor <;> intros <;> rfl
instance : IgnoresCount Proc.kin := ⟨fun _ _ => rfl⟩

theorem kin_eq {r s : Proc} : r.kin = s.kin ↔ r.parent = s.parent ∧ r.chan = s.chan := by
  simp [Proc.kin]

def Table.InWait (t : Table) (p : Slot) : Prop := t.st p = .sleeping ∧ (t.proc p).chan = some (.proc p)

structure Family (t : Table) : Prop where
  init : ∀ q, (t.st q).Started → ∃ i, t.initproc = some i ∧ (t.st i).Alive
  parent : ∀ q, (t.st q).Started → t.initproc ≠ some q → ∃ r, (t.proc q).parent = some r ∧ r ≠ q ∧ (t.st r).Alive
  awake : ∀ p q, t.InWait p → t.st q = .zombie → (t.proc q).parent ≠ some p

structure Kin (t u : Table) : Prop where
  init : u.initproc = t.initproc
  started : ∀ p, (u.st p).Started → (t.st p).Started
  alive : ∀ p, (t.st p).Alive → (u.st p).Alive
  zombie : ∀ p, u.st p = .zombie → t.st p = .zombie
  parent : ∀ p, (u.st p).Started → (u.proc p).parent = (t.proc p).parent
  inWait : ∀ p, u.InWait p → t.InWait p

namespace Kin

variable {t u v : Table}

theorem family (k : Kin t u) (h : Family t) : Family u where
  init q hq := by
    obtain ⟨i, hi, ha⟩ := h.init q (k.started q hq)
    exact ⟨i, k.init.trans hi, k.alive i ha⟩
  parent q hq hne := by
    rw [k.init] at hne
    obtain ⟨r, hr, hrq, ha⟩ := h.parent q (k.started q hq) hne
    exact ⟨r, (k.parent q hq).trans hr, hrq, k.alive r ha⟩
  awake p q hp hq := by
    rw [k.parent q (by rw [hq]; exact ⟨by decide, by decide⟩)]
    exact h.awake p q (k.inWait p hp) (k.zombie q hq)

def tame : List Arrow := [.alloc, .abandon, .dispatch, .yield, .wake]

theorem of_moves {as : List Arrow} (hi : u.initproc = t.initproc) (h : ∀ p, (u.proc p).kin = (t.proc p).kin)
    (hm : Moves as t u) (has : as ⊆ tame) : Kin t u := by
  have hk := fun p => kin_eq.mp (h p)
  have hst : ∀ p, u.st p = t.st p ∨ ∃ a ∈ tame, t.st p = a.source ∧ u.st p = a.target := by
    intro p
    by_cases e : u.st p = t.st p
    · exact .inl e
    · obtain ⟨a, ha, hsrc, htgt⟩ := hm p e
      exact .inr ⟨a, has ha, hsrc, htgt⟩
  refine ⟨hi, fun p hp => ?_, fun p hp => ?_, fun p hp => ?_, fun p _ => (hk p).1, fun p hp => ?_⟩
  · rcases hst p with e | ⟨a, ha, hsrc, htgt⟩
    · exact e ▸ hp
    · rw [htgt] at hp
      rw [hsrc]
      cases a <;> simp [tame, Arrow.source, Arrow.target, ProcState.Started] at ha hp ⊢
  · rcases hst p with e | ⟨a, ha, hsrc, htgt⟩
    · exact e ▸ hp
    · rw [hsrc] at hp
      rw [htgt]
      cases a <;> simp [tame, Arrow.source, Arrow.target, ProcState.Alive, ProcState.Started] at ha hp ⊢
  · rcases hst p with e | ⟨a, ha, hsrc, htgt⟩
    · exact e ▸ hp
    · rw [htgt] at hp
      cases a <;> simp [tame, Arrow.target] at ha hp
  · rcases hst p with e | ⟨a, ha, hsrc, htgt⟩
    · exact ⟨e ▸ hp.1, (hk p).2 ▸ hp.2⟩
    · have hs := hp.1
      rw [htgt] at hs
      cases a <;> simp [tame, Arrow.target] at ha hs

end Kin

namespace Family

variable {t u : Table} {p q np : Slot}

theorem change (h : Family t) (hi : u.initproc = t.initproc) (hst : ∀ q, q ≠ p → u.st q = t.st q)
    (hk : ∀ q, q ≠ p → (u.proc q).kin = (t.proc q).kin)
    (hinit : t.initproc = some p → (t.st p).Alive → (u.st p).Alive)
    (hkids : ∀ q, (t.st q).Started → t.initproc ≠ some q → (t.proc q).parent = some p → (u.st p).Alive)
    (hfirst : (u.st p).Started → (∃ q, (t.st q).Started) ∨ (t.initproc = some p ∧ (u.st p).Alive))
    (hparent : (u.st p).Started → t.initproc ≠ some p → ∃ r, (u.proc p).parent = some r ∧ r ≠ p ∧ (t.st r).Alive)
    (hwait : u.InWait p → ∀ q, t.st q = .zombie → (t.proc q).parent ≠ some p)
    (hzombie : u.st p = .zombie → ∀ r, t.InWait r → (u.proc p).parent ≠ some r) : Family u := by
  have hpar := fun q hq => (kin_eq.mp (hk q hq)).1
  have hchan := fun q hq => (kin_eq.mp (hk q hq)).2
  have hsome : ∀ q, (t.st q).Started → ∃ i, u.initproc = some i ∧ (u.st i).Alive := by
    intro q hq
    obtain ⟨i, hti, ha⟩ := h.init q hq
    refine ⟨i, hi.trans hti, ?_⟩
    by_cases e : i = p
    · subst e
      exact hinit hti ha
    · rw [hst i e]
      exact ha
  refine ⟨fun q hq => ?_, fun q hq hne => ?_, fun r q hr hz => ?_⟩
  · by_cases e : q = p
    · subst e
      rcases hfirst hq with ⟨x, hx⟩ | ⟨hx, ha⟩
      · exact hsome x hx
      · exact ⟨q, hi.trans hx, ha⟩
    · exact hsome q (hst q e ▸ hq)
  · rw [hi] at hne
    by_cases e : q = p
    · subst e
      obtain ⟨r, hr, hrq, ha⟩ := hparent hq hne
      exact ⟨r, hr, hrq, by rw [hst r hrq]; exact ha⟩
    · have hqt : (t.st q).Started := hst q e ▸ hq
      obtain ⟨r, hr, hrq, ha⟩ := h.parent q hqt hne
      refine ⟨r, (hpar q e).trans hr, hrq, ?_⟩
      by_cases e' : r = p
      · subst e'
        exact hkids q hqt hne hr
      · rw [hst r e']
        exact ha
  · by_cases e : q = p
    · subst e
      by_cases e' : r = q
      · subst e'
        rw [hr.1] at hz
        cases hz
      · exact hzombie hz r ⟨hst r e' ▸ hr.1, (hchan r e') ▸ hr.2⟩
    · have hqz : t.st q = .zombie := hst q e ▸ hz
      rw [hpar q e]
      by_cases e' : r = p
      · subst e'
        exact hwait hr q hqz
      · exact h.awake r q ⟨hst r e' ▸ hr.1, (hchan r e') ▸ hr.2⟩ hqz

theorem start (h : Family t) (hk : Frame Proc.kin t u) (hst : u.st = update t.st np .runnable)
    (hn : t.st np = .embryo) (hp : t.initproc = some np ∨ ∃ r, (t.proc np).parent = some r ∧ (t.st r).Alive) : Family u := by
  have hnew : u.st np = .runnable := by rw [hst, update_self]
  have halive : (u.st np).Alive := by
    rw [hnew]
    exact ⟨⟨by decide, by decide⟩, by decide⟩
  refine h.change (p := np) hk.initproc (fun q hq => ?_) (fun q _ => hk.proc q) (fun _ _ => halive) (fun _ _ _ _ => halive)
    (fun _ => ?_) (fun _ hne => ?_) (fun hw => ?_) (fun hz => ?_)
  · rw [hst, update_of_ne hq]
  · rcases hp with hp | ⟨r, -, hr⟩
    · exact .inr ⟨hp, halive⟩
    · exact .inl ⟨r, hr.1⟩
  · obtain ⟨r, hr, ha⟩ := hp.resolve_left hne
    refine ⟨r, (kin_eq.mp (hk.proc np)).1.trans hr, ?_, ha⟩
    rintro rfl
    exact ha.1.2 hn
  · rw [InWait, hnew] at hw
    cases hw.1
  · rw [hnew] at hz
    cases hz

theorem reap (h : Family t) (hq : t.st q = .zombie) : Family (t.reap q) := by
  have hself : (t.reap q).st q = .unused := by rw [reap_st, update_self]
  have hnot : ∀ {P : Prop}, ((t.reap q).st q).Started → P := fun hs => absurd hself hs.1
  refine h.change (p := q) rfl (fun p hp => ?_) (fun p hp => ?_) (fun _ ha => absurd hq ha.2) (fun p hp hne hr => ?_) hnot
    (fun hs _ => hnot hs) (fun hw => ?_) (fun hz => ?_)
  · rw [reap_st, update_of_ne hp]
  · rw [Table.reap, setProc_of_ne _ _ _ _ hp]
  · -- the parent of a process is no zombie
    obtain ⟨r, hr', -, ha⟩ := h.parent p hp hne
    rw [hr] at hr'
    cases hr'
    exact absurd hq ha.2
  · rw [InWait, hself] at hw
    cases hw.1
  · rw [hself] at hz
    cases hz

theorem goSleep (h : Family t) (hp : t.st p = .running) (chan : Chan) (x : Context)
    (hc : chan = .proc p → ∀ q, t.st q = .zombie → (t.proc q).parent ≠ some p) : Family (t.goSleep p chan x) := by
  have hself : (t.goSleep p chan x).st p = .sleeping := by rw [goSleep_st, update_self]
  have hproc : (t.goSleep p chan x).proc p = { t.proc p with chan := some chan, state := .sleeping, context := x } :=
    setProc_self _ _ _
  have hold : (t.st p).Started := by
    rw [hp]
    exact ⟨by decide, by decide⟩
  have halive : ((t.goSleep p chan x).st p).Alive := by
    rw [hself]
    exact ⟨⟨by decide, by decide⟩, by decide⟩
  refine h.change (p := p) rfl (fun q hq => ?_) (fun q hq => ?_) (fun _ _ => halive) (fun _ _ _ _ => halive)
    (fun _ => .inl ⟨p, hold⟩) (fun _ hne => ?_) (fun hw => ?_) (fun hz => ?_)
  · rw [goSleep_st, update_of_ne hq]
  · rw [Table.goSleep, setProc_of_ne _ _ _ _ hq]
  · rw [hproc]
    exact h.parent p hold hne
  · have hch := hw.2
    rw [hproc] at hch
    exact hc (Option.some.inj hch)
  · rw [hself] at hz
    cases hz

end Family

variable {t : Table}

theorem wakeOne_asleep (b : Build) (chan : Option Chan) (t : Table) (p q : Slot)
    (h : (wakeOne b chan t p).st q = .sleeping) (hc : ((wakeOne b chan t p).proc q).chan = chan) : q ≠ p := by
  rintro rfl
  have hk := (kin_eq.mp ((Frame.wakeOne (π := Proc.kin) b chan t q).proc q)).2
  rw [hk] at hc
  unfold wakeOne at h
  split_ifs at h with hs hb
  · rw [pushBackProcess_st] at h
    simp [st] at h
  · simp [st] at h
  · exact hs ⟨h, hc⟩

theorem wakeup1_asleep (b : Build) (chan : Option Chan) (t : Table) (q : Slot) (h : (t.wakeup1 b chan).st q = .sleeping) :
    ((t.wakeup1 b chan).proc q).chan ≠ chan := by
  -- the slots that the loop has passed are not asleep on the channel
  have key : ∀ (ps : List Slot) (t : Table), (ps.foldl (wakeOne b chan) t).st q = .sleeping →
      ((ps.foldl (wakeOne b chan) t).proc q).chan = chan → q ∉ ps := by
    intro ps
    induction ps with
    | nil => exact fun _ _ _ => List.not_mem_nil
    | cons p ps ih =>
      intro t hs hc
      rw [List.foldl_cons] at hs hc
      have hw := Wakes.foldl (wakeOne b chan) (wakeOne_wakes b chan) ps (wakeOne b chan t p)
      have hk := (kin_eq.mp ((Frame.foldl (Frame.wakeOne b chan) ps (wakeOne b chan t p)).proc q)).2
      have hs' : (wakeOne b chan t p).st q = .sleeping := (hw.st_of_ne' (by simp [hs])).symm.trans hs
      intro hmem
      rcases List.mem_cons.mp hmem with e | hmem
      · exact wakeOne_asleep b chan t p q hs' (hk.symm.trans hc) e
      · exact ih _ hs hc hmem
  intro hc
  unfold Table.wakeup1 at h hc
  exact key slots t h hc (List.mem_finRange q)

structure Reparents (p : Slot) (ps : List Slot) (t u : Table) : Prop where
  init : u.initproc = t.initproc
  chan : ∀ q, (u.proc q).chan = (t.proc q).chan
  wakes : Wakes t u
  parent : ∀ q, (u.proc q).parent = if q ∈ ps ∧ (t.proc q).parent = some p then t.initproc else (t.proc q).parent
  woken : ∀ q ∈ ps, (t.proc q).parent = some p → t.st q = .zombie → ∀ i, t.initproc = some i → ¬ u.InWait i

namespace Reparents

variable {p : Slot}

theorem one (b : Build) (t : Table) (x : Slot) : Reparents p [x] t (reparentOne b p t x) := by
  have hw := reparentOne_wakes b p t x
  unfold Table.reparentOne at hw ⊢
  split_ifs at hw ⊢ with hx
  · have hset : ∀ q, ((t.setProc x (fun r => { r with parent := t.initproc })).proc q).parent =
        if q = x then t.initproc else (t.proc q).parent := by
      intro q
      rw [setProc_proc]
      split_ifs <;> rfl
    have hchan : ∀ q, ((t.setProc x (fun r => { r with parent := t.initproc })).proc q).chan = (t.proc q).chan := by
      intro q
      rw [setProc_proc]
      split_ifs with e
      · rw [e]
      · rfl
    dsimp only at hw ⊢
    have hpar : ∀ q, (if q = x then t.initproc else (t.proc q).parent) =
        if q ∈ [x] ∧ (t.proc q).parent = some p then t.initproc else (t.proc q).parent := by
      intro q
      by_cases e : q = x
      · subst e
        simp [hx]
      · simp [e]
    split_ifs at hw ⊢ with hz
    · have hk := Frame.wakeup1 (π := Proc.kin) b (t.setProc x (fun r => { r with parent := t.initproc })) (t.initproc.map .proc)
      have hwake := wakeup1_asleep b (t.initproc.map .proc) (t.setProc x (fun r => { r with parent := t.initproc }))
      rw [setProc_initproc] at hw ⊢
      generalize wakeup1 b (t.setProc x (fun r => { r with parent := t.initproc })) (t.initproc.map .proc) = v at hk hwake hw ⊢
      have hq := fun q => kin_eq.mp (hk.proc q)
      refine ⟨hk.initproc, fun q => (hq q).2.trans (hchan q), hw, fun q => ?_, fun q _ _ _ i hi hin => ?_⟩
      · rw [(hq q).1, hset, hpar]
      · exact hwake i hin.1 (by rw [hi]; exact hin.2)
    · refine ⟨rfl, hchan, hw, fun q => ?_, fun q hq _ hzq => ?_⟩
      · rw [hset, hpar]
      · rw [List.mem_singleton.mp hq] at hzq
        refine absurd ?_ hz
        rw [setProc_self]
        exact hzq
  · refine ⟨rfl, fun _ => rfl, hw, fun q => ?_, fun q hq hp => ?_⟩
    · rw [if_neg]
      rintro ⟨hq, hp⟩
      exact hx (List.mem_singleton.mp hq ▸ hp)
    · exact absurd (List.mem_singleton.mp hq ▸ hp) hx

theorem inWait {ps : List Slot} {t u : Table} {i : Slot} (h : Reparents p ps t u) (hi : u.InWait i) : t.InWait i :=
  ⟨(h.wakes.st_of_ne' (by simp [hi.1])).symm.trans hi.1, (h.chan i).symm.trans hi.2⟩

theorem cons {x : Slot} {ps : List Slot} {t u v : Table} (h : Reparents p [x] t u) (k : Reparents p ps u v) :
    Reparents p (x :: ps) t v := by
  refine ⟨k.init.trans h.init, fun q => (k.chan q).trans (h.chan q), h.wakes.trans k.wakes, fun q => ?_,
    fun q hq hp hz i hi hin => ?_⟩
  · rw [k.parent, h.init, h.parent]
    simp only [List.mem_cons]
    by_cases hp : (t.proc q).parent = some p
    · by_cases e : q = x
      · subst e
        simp [hp]
      · simp [e, hp]
    · simp [hp]
  · by_cases e : q = x
    · subst e
      exact h.woken q (List.mem_singleton.mpr rfl) hp hz i hi (k.inWait hin)
    · refine k.woken q ((List.mem_cons.mp hq).resolve_left e) ?_ ((h.wakes.st_of_ne (by simp [hz])).trans hz) i
        (h.init.trans hi) hin
      rw [h.parent, if_neg (fun hx => e (List.mem_singleton.mp hx.1)), hp]

theorem fold (b : Build) (ps : List Slot) (t : Table) : Reparents p ps t (ps.foldl (reparentOne b p) t) := by
  induction ps generalizing t with
  | nil => exact ⟨rfl, fun _ => rfl, .refl _, fun q => by simp, fun q hq => absurd hq List.not_mem_nil⟩
  | cons x ps ih => exact (one b t x).cons (ih _)

end Reparents

namespace Family

variable {u : Table} {p : Slot}

theorem reparent (h : Family t) (k : Reparents p slots t u) : Family u := by
  have halive : ∀ q, (t.st q).Alive → (u.st q).Alive := by
    intro q hq
    rcases k.wakes.state q with e | ⟨-, e⟩
    · rw [st, e]
      exact hq
    · rw [st, e]
      exact ⟨⟨by decide, by decide⟩, by decide⟩
  have hstarted : ∀ q, (u.st q).Started → (t.st q).Started := by
    intro q hq
    rcases k.wakes.state q with e | ⟨e, -⟩
    · rw [st, ← e]
      exact hq
    · rw [st, e]
      exact ⟨by decide, by decide⟩
  refine ⟨fun q hq => ?_, fun q hq hne => ?_, fun r q hr hz hpar => ?_⟩
  · obtain ⟨i, hi, ha⟩ := h.init q (hstarted q hq)
    exact ⟨i, k.init.trans hi, halive i ha⟩
  · rw [k.init] at hne
    rw [k.parent]
    split_ifs with hp
    · obtain ⟨i, hi, ha⟩ := h.init q (hstarted q hq)
      refine ⟨i, hi, ?_, halive i ha⟩
      rintro rfl
      exact hne hi
    · obtain ⟨r, hr, hrq, ha⟩ := h.parent q (hstarted q hq) hne
      exact ⟨r, hr, hrq, halive r ha⟩
  · have hzt : t.st q = .zombie := (k.wakes.st_of_ne' (by simp [hz])).symm.trans hz
    rw [k.parent] at hpar
    split_ifs at hpar with hp
    · exact k.woken q hp.1 hp.2 hzt r hpar hr
    · exact h.awake r q (k.inWait hr) hzt hpar

theorem exit (h : Family t) (b : Build) (hp : t.st p = .running) (hi : t.initproc ≠ some p) : Family (t.exit b p) := by
  have hk1 := Frame.wakeup1 (π := Proc.kin) b t ((t.proc p).parent.map .proc)
  have hw1 := wakeup1_wakes b t ((t.proc p).parent.map .proc)
  have hwake := wakeup1_asleep b ((t.proc p).parent.map .proc) t
  have hrep := Reparents.fold (p := p) b slots (t.wakeup1 b ((t.proc p).parent.map .proc))
  unfold Table.exit
  dsimp only
  generalize t.wakeup1 b ((t.proc p).parent.map .proc) = t1 at hk1 hw1 hwake hrep ⊢
  generalize slots.foldl (reparentOne b p) t1 = t2 at hrep ⊢
  have hm1 : Moves [.wake] t t1 := .of_wakes hw1 (List.mem_singleton_self _)
  have h1 : Family t1 := (Kin.of_moves hk1.initproc hk1.proc hm1 (by simp [Kin.tame])).family h
  have h2 : Family t2 := h1.reparent hrep
  have hinit : t2.initproc ≠ some p := by
    rw [hrep.init, hk1.initproc]
    exact hi
  have hp2 : t2.st p = .running := ((hw1.trans hrep.wakes).st_of_ne (by simp [hp])).trans hp
  have hself : (t2.setProc p (fun r => { r with state := .zombie, endTime := i32 t2.ticks })).st p = .zombie := by simp [st]
  refine h2.change (p := p) rfl (fun q hq => ?_) (fun q hq => ?_) (fun hx => absurd hx hinit) (fun q _ _ hq => ?_)
    (fun _ => .inl ⟨p, ?_⟩) (fun _ _ => ?_) (fun hw => ?_) (fun _ r hr => ?_)
  · rw [st, setProc_of_ne _ _ _ _ hq]
    rfl
  · rw [setProc_of_ne _ _ _ _ hq]
  · -- `p` has no children left
    rw [hrep.parent] at hq
    split_ifs at hq with hx
    · rw [← hrep.init] at hq
      exact absurd hq hinit
    · exact absurd ⟨List.mem_finRange q, hq⟩ hx
  · rw [hp2]
    exact ⟨by decide, by decide⟩
  · rw [setProc_self]
    exact h2.parent p (by rw [hp2]; exact ⟨by decide, by decide⟩) hinit
  · rw [InWait, hself] at hw
    cases hw.1
  · -- the parent of `p` has been woken
    rw [setProc_self]
    intro hpar
    obtain ⟨r0, hr0, hne, -⟩ := h.parent p (by rw [hp]; exact ⟨by decide, by decide⟩) hi
    have hpar1 : (t1.proc p).parent = some r0 := (kin_eq.mp (hk1.proc p)).1.trans hr0
    rw [hrep.parent, if_neg, hpar1] at hpar
    · cases hpar
      have hin := hrep.inWait hr
      exact hwake r hin.1 (by rw [hr0]; exact hin.2)
    · rintro ⟨-, hx⟩
      rw [hpar1] at hx
      exact hne (Option.some.inj hx)

end Family

end ProcTable

namespace Threads

variable {n : ℕ}

namespace Kernel

variable {t : Table} {p : Slot}

structure Families (k : Kernel n) : Prop where
  table : Family k.table
  copied : ∀ p np, k.making (some p) = .copied np → (k.table.proc np).parent = some p
  inited : ∀ p, k.making none = .inited p → k.table.initproc = some p
  booting : ∀ c, (k.cpu c).ctl = .boot → c.val = 0 ∧ ∀ q, ¬ (k.table.st q).Started

variable {k k' : Kernel n} {l : Label n} {b : Build}

theorem waitScan_sleep {q : Slot} (h : t.waitScan p = .sleep) (hq : t.st q = .zombie) : (t.proc q).parent ≠ some p := by
  intro hp
  unfold waitScan at h
  split at h
  · cases h
  · rename_i hn
    have := List.find?_eq_none.mp hn q (List.mem_finRange q)
    exact this (by simpa using ⟨hp, hq⟩)

theorem kin_wakeSleeper (hp : t.st p = .running) : Kin t (t.wakeSleeper p) := by
  have hst : (t.wakeSleeper p).st = t.st := wakeSleeper_st t p
  have hproc : ∀ q, q ≠ p → (t.wakeSleeper p).proc q = t.proc q := fun q hq => setProc_of_ne _ _ _ _ hq
  refine ⟨rfl, fun q hq => hst ▸ hq, fun q hq => by rw [hst]; exact hq, fun q hq => hst ▸ hq, fun q _ => ?_, fun q hq => ?_⟩
  · by_cases e : q = p
    · subst e
      simp [Table.wakeSleeper]
    · rw [hproc q e]
  · have e : q ≠ p := by
      rintro rfl
      rw [InWait, hst, hp] at hq
      cases hq.1
    rw [InWait, hst, hproc q e] at hq
    exact hq

theorem kin_setParent {np : Slot} (hn : t.st np = .embryo) (p : Slot) :
    Kin t (t.setProc np (fun r => { r with parent := some p })) := by
  have hst := setParent_st t np p
  have hproc : ∀ q, q ≠ np → (t.setProc np (fun r => { r with parent := some p })).proc q = t.proc q :=
    fun q hq => setProc_of_ne _ _ _ _ hq
  refine ⟨rfl, fun q hq => hst ▸ hq, fun q hq => by rw [hst]; exact hq, fun q hq => hst ▸ hq, fun q hq => ?_, fun q hq => ?_⟩
  · have e : q ≠ np := by
      rintro rfl
      rw [hst] at hq
      exact hq.2 hn
    rw [hproc q e]
  · have e : q ≠ np := by
      rintro rfl
      rw [InWait, hst, hn] at hq
      cases hq.1
    rw [InWait, hst, hproc q e] at hq
    exact hq

theorem allocproc_kin {u : Table} {np : Slot} (ha : t.allocproc = some (u, np)) :
    u.initproc = t.initproc ∧ ∀ q, (u.proc q).kin = (t.proc q).kin :=
  ⟨by rw [(allocproc_eq ha).2, setProc_initproc], allocproc_proc ha (fun _ _ => rfl)⟩

theorem allocprocTail_kin (b : Build) (t : Table) (p : Slot) : Frame Proc.kin t (t.allocprocTail b p) := by
  refine (Frame.setProc t p (fun r => { r with context := .forkret }) (fun _ => rfl)).trans ?_
  unfold Table.allocprocTail initializeNewFields
  apply Frame.setProc
  intro r
  cases b <;> rfl

theorem yield_kin (t : Table) (p : Slot) : Frame Proc.kin t (t.yield p) := .setProc _ _ _ (fun _ => rfl)

theorem reap_parent {x q : Slot} (hx : x ≠ q) : ((t.reap q).proc x).parent = (t.proc x).parent := by
  rw [Table.reap, setProc_of_ne _ _ _ _ hx]

theorem goSleep_parent (t : Table) (p x : Slot) (chan : Chan) (ctx : Context) :
    ((t.goSleep p chan ctx).proc x).parent = (t.proc x).parent := by
  have hf : Frame Proc.parent t (t.goSleep p chan ctx) := .setProc _ _ _ (fun _ => rfl)
  exact hf.proc x

theorem wakeSleeper_parent (t : Table) (p x : Slot) : ((t.wakeSleeper p).proc x).parent = (t.proc x).parent := by
  have hf : Frame Proc.parent t (t.wakeSleeper p) := .setProc _ _ _ (fun _ => rfl)
  exact hf.proc x

namespace Turn

variable {k : Kernel n} {l : Label n} {c : Fin n} {x : Context}

theorem running (h : k.Turn c p x l t) (hi : k.Live) : t.st p = .running := by
  rw [h.st]
  exact hi.running_of h.proc h.ne_out

theorem family (h : k.Turn c p x l t) (hi : k.Live) (hf : Family k.table) : Family t := by
  cases h with
  | call => exact hf
  | again hp => exact (kin_wakeSleeper (hi.running_of hp.2 (by rw [hp.1]; decide))).family hf

theorem initproc (h : k.Turn c p x l t) : t.initproc = k.table.initproc := by
  cases h <;> rfl

theorem parent (h : k.Turn c p x l t) (y : Slot) : (t.proc y).parent = (k.table.proc y).parent := by
  cases h with
  | call => rfl
  | again => exact wakeSleeper_parent _ _ _

end Turn

theorem tick_kin (b : Build) (t : Table) (p : Slot) : ((t.tick b).proc p).kin = (t.proc p).kin := by
  change (tickProc b (t.proc p)).kin = (t.proc p).kin
  unfold tickProc
  by_cases hs : (t.proc p).killed = true ∨ (t.proc p).pid = 0
  · rw [if_pos hs]
  · rw [if_neg hs]
    cases (t.proc p).state <;> cases b <;> rfl

theorem family_of_unstarted (h : ∀ q, ¬ (t.st q).Started) : Family t where
  init q hq := absurd hq (h q)
  parent q hq := absurd hq (h q)
  awake p q _ hq := absurd ⟨by rw [hq]; decide, by rw [hq]; decide⟩ (h q)

theorem Families.table_step (h : k.Families) (hi : k.Inv) (hs : k.step b l = some k') : Family k'.table := by
  have hrun : ∀ {c p}, (k.cpu c).proc = some p → (k.cpu c).ctl ≠ .swtchOut → k.table.st p = .running :=
    fun hp hc => hi.live.running_of hp hc
  have htame : (k'.table.initproc = k.table.initproc ∧ ∀ p, (k'.table.proc p).kin = (k.table.proc p).kin) →
      l.arrows ⊆ Kin.tame → Family k'.table :=
    fun hk ha => (Kin.of_moves hk.1 hk.2 (hi.moves hs) ha).family h.table
  have hframe : Frame Proc.kin k.table k'.table → l.arrows ⊆ Kin.tame → Family k'.table :=
    fun hk => htame ⟨hk.initproc, hk.proc⟩
  cases step_cases hs with
  | userinitAlloc _ _ _ ha | forkAlloc _ _ _ ha => exact htame (allocproc_kin ha) (by simp [Label.arrows, Kin.tame])
  | @userinitTail c p hc hm =>
    apply family_of_unstarted
    intro q
    change ¬ ((k.table.allocprocTail b p).st q).Started
    rw [allocprocTail_st]
    exact (h.booting c hc).2 q
  | @userinitDone c p hl hc hm =>
    exact h.table.start (.userinitRunnable b k.table p) (userinitRunnable_st b k.table p)
      (hi.live.embryo none p (by rw [hm]; rfl)) (.inl (h.inited p hm))
  | forkKalloc => exact hframe (allocprocTail_kin b _ _) (by simp [Label.arrows])
  | forkNoStack | forkNoCopy => exact hframe (.setState _ _ _) (by simp [Label.arrows, Kin.tame])
  | @forkCopyuvm c p np hp hm => exact (kin_setParent (hi.live.embryo (some p) np (by rw [hm]; rfl)) p).family h.table
  | @forkDone c p np hl hp hm =>
    refine h.table.start (.makeRunnable b k.table np) (makeRunnable_st b k.table np)
      (hi.live.embryo (some p) np (by rw [hm]; rfl)) (.inr ⟨p, h.copied p np hm, ?_⟩)
    rw [hrun hp.2 (hl c).2]
    exact ⟨⟨by decide, by decide⟩, by decide⟩
  | @exit c p hl hp hm hinit hc => exact h.table.exit b (hrun hp (hl c).2) hinit
  | reap ht hq => exact (ht.family hi.live h.table).reap (waitScan_reap hq).2
  | waitFail ht => exact ht.family hi.live h.table
  | waitSleep ht hq =>
    exact (ht.family hi.live h.table).goSleep (ht.running hi.live) _ _ (fun _ q hz => waitScan_sleep hq hz)
  | @sleep c p addr hl hp hm => exact h.table.goSleep (hrun hp.2 (hl c).2) (.addr addr) .sleep (fun e => by cases e)
  | wakeup =>
    rw [setTable_table] at hframe ⊢
    exact hframe (.wakeup1 _ _ _) (by simp [Label.arrows, Kin.tame])
  | kill => exact hframe (.kill _ _ _) (by simp [Label.arrows, Kin.tame])
  | setPriority => exact hframe (.setPriority (fun _ _ => rfl) _ _ _) (by simp [Label.arrows])
  | fault => exact hframe (.mark _ _) (by simp [Label.arrows])
  | tick => exact htame ⟨rfl, tick_kin b k.table⟩ (by simp [Label.arrows])
  | trapDemote => exact hframe (.setupDemotion _ _) (by simp [Label.arrows, Kin.tame])
  | trapYield | demoteYield => exact hframe (yield_kin _ _) (by simp [Label.arrows, Kin.tame])
  | @idle c => exact hframe (pick_frame b k c) (by simp [Label.arrows, Kin.tame])
  | run hp => exact hframe (hp.frame.trans (.dispatch _ _ _)) (by simp [hp.arrows, Kin.tame])
  | @resumeSleep c p hp => exact (kin_wakeSleeper (hrun hp.2 (by rw [hp.1]; decide))).family h.table
  | back => exact hframe (backTable_frame b _ _) (by simp [Label.arrows, Kin.tame])
  | forkNone | timer | trapUser | resumeUser => exact h.table

theorem exit_parent {x : Slot} (b : Build) (h : (t.proc x).parent ≠ some p) :
    ((t.exit b p).proc x).parent = (t.proc x).parent := by
  have hk := (kin_eq.mp ((Frame.wakeup1 (π := Proc.kin) b t ((t.proc p).parent.map .proc)).proc x)).1
  have hrep := Reparents.fold (p := p) b slots (t.wakeup1 b ((t.proc p).parent.map .proc))
  have hset : ((t.exit b p).proc x).parent =
      ((slots.foldl (reparentOne b p) (t.wakeup1 b ((t.proc p).parent.map .proc))).proc x).parent := by
    unfold Table.exit
    dsimp only
    rw [setProc_proc]
    split_ifs with e
    · rw [e]
    · rfl
  rw [hset, hrep.parent, hk, if_neg (fun hx => h hx.2)]

theorem exit_initproc (b : Build) (t : Table) (p : Slot) : (t.exit b p).initproc = t.initproc := by
  have hk := (Frame.wakeup1 (π := Proc.kin) b t ((t.proc p).parent.map .proc)).initproc
  have hrep := (Reparents.fold (p := p) b slots (t.wakeup1 b ((t.proc p).parent.map .proc))).init
  unfold Table.exit
  dsimp only
  rw [setProc_initproc, hrep, hk]

structure Relates (k : Kernel n) (u : Table) : Prop where
  initproc : u.initproc = k.table.initproc ∨ ((∃ c, (k.cpu c).ctl = .boot) ∧ ∃ p, k.making none = .alloced p)
  parent : ∀ x, (u.proc x).parent = (k.table.proc x).parent ∨ (∃ p, k.making (some p) = .inited x) ∨
    (∃ p, (k.table.proc x).parent = some p ∧ k.making (some p) = .idle) ∨ k.table.st x = .zombie

theorem Relates.of_frame {u : Table} (h : Frame Proc.kin k.table u) : Relates k u :=
  ⟨.inl h.initproc, fun x => .inl (kin_eq.mp (h.proc x)).1⟩

theorem Relates.of_kin {u : Table} (h : u.initproc = k.table.initproc ∧ ∀ p, (u.proc p).kin = (k.table.proc p).kin) :
    Relates k u :=
  ⟨.inl h.1, fun x => .inl (kin_eq.mp (h.2 x)).1⟩

theorem relates_step (hs : k.step b l = some k') : Relates k k'.table := by
  cases step_cases hs with
  | userinitAlloc _ _ _ ha | forkAlloc _ _ _ ha => exact .of_kin (allocproc_kin ha)
  | @userinitTail c p hc hm => exact ⟨.inr ⟨⟨c, hc⟩, p, hm⟩, fun x => .inl (kin_eq.mp ((allocprocTail_kin b k.table p).proc x)).1⟩
  | userinitDone => exact .of_frame (.userinitRunnable _ _ _)
  | forkKalloc => exact .of_frame (allocprocTail_kin b k.table _)
  | forkNoStack | forkNoCopy => exact .of_frame (.setState _ _ _)
  | @forkCopyuvm c q np hq hm =>
    refine ⟨.inl rfl, fun x => ?_⟩
    by_cases e : x = np
    · subst e
      exact .inr (.inl ⟨q, hm⟩)
    · left
      rw [setMaking_table, setTable_table, setProc_of_ne _ _ _ _ e]
  | forkDone => exact .of_frame (.makeRunnable _ _ _)
  | @exit c q hl hq hm hinit hc =>
    refine ⟨.inl (exit_initproc b k.table q), fun x => ?_⟩
    by_cases e : (k.table.proc x).parent = some q
    · exact .inr (.inr (.inl ⟨q, e, hm⟩))
    · exact .inl (exit_parent b e)
  | reap ht hq =>
    refine ⟨.inl ht.initproc, fun y => ?_⟩
    by_cases e : k.table.st y = .zombie
    · exact .inr (.inr (.inr e))
    · refine .inl ((reap_parent ?_).trans (ht.parent y))
      rintro rfl
      rw [← ht.st] at e
      exact e (waitScan_reap hq).2
  | waitFail ht => exact ⟨.inl ht.initproc, fun y => .inl (ht.parent y)⟩
  | waitSleep ht => exact ⟨.inl ht.initproc, fun y => .inl ((goSleep_parent _ _ _ _ _).trans (ht.parent y))⟩
  | sleep => exact ⟨.inl rfl, fun y => .inl (goSleep_parent _ _ _ _ _)⟩
  | wakeup =>
    rw [setTable_table]
    exact .of_frame (.wakeup1 _ _ _)
  | kill => exact .of_frame (.kill _ _ _)
  | setPriority => exact .of_frame (.setPriority (fun _ _ => rfl) _ _ _)
  | fault => exact .of_frame (.mark _ _)
  | tick => exact .of_kin ⟨rfl, tick_kin b k.table⟩
  | trapDemote => exact .of_frame (.setupDemotion _ _)
  | trapYield | demoteYield => exact .of_frame (yield_kin _ _)
  | @idle c => exact .of_frame (pick_frame b k c)
  | run hp => exact .of_frame (hp.frame.trans (.dispatch _ _ _))
  | resumeSleep => exact ⟨.inl rfl, fun y => .inl (wakeSleeper_parent _ _ _)⟩
  | back => exact .of_frame (backTable_frame b _ _)
  | forkNone | timer | trapUser | resumeUser => exact .of_frame (.refl _)

theorem making_step (hs : k.step b l = some k') : k'.making = k.making ∨ ∃ key m, k'.making = update k.making key m ∧
    (∀ p, key = none → m = .inited p → k'.table.initproc = some p) ∧
    ∀ np, m = .copied np → ∃ p, key = some p ∧ (k'.table.proc np).parent = some p := by
  cases step_cases hs with
  | @forkCopyuvm c q np hq hm =>
    refine .inr ⟨some q, .copied np, rfl, by simp, fun np' e => ⟨q, rfl, ?_⟩⟩
    cases e
    simp
  | userinitAlloc | userinitTail | userinitDone | forkAlloc | forkKalloc | forkNoStack | forkNoCopy | forkDone =>
    exact .inr ⟨_, _, rfl, by simp, by simp⟩
  | wakeup => exact .inl (setTable_making _ _)
  | _ => exact .inl rfl

theorem Families.copied_step (h : k.Families) (hi : k.Inv) (hs : k.step b l = some k') (p np : Slot)
    (hm' : k'.making (some p) = .copied np) : (k'.table.proc np).parent = some p := by
  have hold : k.making (some p) = .copied np → (k'.table.proc np).parent = some p := by
    intro hm
    have hp := h.copied p np hm
    rcases (relates_step hs).parent np with e | ⟨q, hq⟩ | ⟨q, hq, hidle⟩ | hz
    · exact e.trans hp
    · have hkey := hi.live.owner (some p) (some q) np (by rw [hm]; rfl) (by rw [hq]; rfl)
      rw [hkey, hq] at hm
      cases hm
    · rw [hp] at hq
      cases hq
      rw [hm] at hidle
      cases hidle
    · rw [hi.live.embryo (some p) np (by rw [hm]; rfl)] at hz
      cases hz
  rcases making_step hs with e | ⟨key, m, e, -, hcopy⟩
  · exact hold (e ▸ hm')
  · rw [e] at hm'
    by_cases ek : some p = key
    · rw [ek, update_self] at hm'
      obtain ⟨q, hq, hpar⟩ := hcopy np hm'
      rw [hq] at ek
      cases ek
      exact hpar
    · rw [update_of_ne ek] at hm'
      exact hold hm'

theorem Families.inited_step (h : k.Families) (hs : k.step b l = some k') (p : Slot)
    (hm' : k'.making none = .inited p) : k'.table.initproc = some p := by
  have hold : k.making none = .inited p → k'.table.initproc = some p := by
    intro hm
    rcases (relates_step hs).initproc with e | ⟨-, q, hq⟩
    · exact e.trans (h.inited p hm)
    · rw [hm] at hq
      cases hq
  rcases making_step hs with e | ⟨key, m, e, hinit, -⟩
  · exact hold (e ▸ hm')
  · rw [e] at hm'
    by_cases ek : none = key
    · rw [ek, update_self] at hm'
      exact hinit p ek.symm hm'
    · rw [update_of_ne ek] at hm'
      exact hold hm'

theorem Families.booting_step (h : k.Families) (hi : k.Inv) (hs : k.step b l = some k') (c : Fin n)
    (hc : (k'.cpu c).ctl = .boot) : c.val = 0 ∧ ∀ q, ¬ (k'.table.st q).Started := by
  have hboot : (k.cpu c).ctl = .boot := by
    rcases enters_step hs c with e | e
    · exact e.symm.trans hc
    · rw [hc] at e
      cases l <;> cases b <;> simp [Label.enters] at e
  obtain ⟨h0, hnone⟩ := h.booting c hboot
  refine ⟨h0, fun q hq => ?_⟩
  by_cases e : k'.table.st q = k.table.st q
  · rw [e] at hq
    exact hnone q hq
  · obtain ⟨a, ha, hsrc, htgt⟩ := hi.moves hs q e
    have hsn := hnone q
    rw [hsrc] at hsn
    rw [htgt] at hq
    cases a with
    | start =>
      cases step_cases hs with
      | @userinitDone d p hl hd hm =>
        obtain rfl : c = d := Fin.ext (h0.trans (h.booting d hd).1.symm)
        simp [setCtl, setCpu] at hc
      | @forkDone d p np hl hp hm =>
        refine hnone p ?_
        rw [hi.live.running_of hp.2 (hl d).2]
        exact ⟨by decide, by decide⟩
      | reap ht | waitFail ht | waitSleep ht => simp [ht.arrows] at ha
      | run hr => simp [hr.arrows] at ha
      | _ => simp [Label.arrows] at ha
    | alloc => exact hq.2 rfl
    | abandon => exact hq.1 rfl
    | _ => exact hsn ⟨by decide, by decide⟩

end Kernel

theorem reachable_families {b : Build} {k : Kernel n} (h : (machine b n).Reachable k) : k.Families := by
  refine ReachableWhere.invariant h ?_ ?_
  · rintro k rfl
    have hun : ∀ q, ¬ ((Kernel.start n).table.st q).Started := fun q hq => hq.1 rfl
    refine ⟨Kernel.family_of_unstarted hun, fun p np hm => ?_, fun p hm => ?_, fun c hc => ⟨?_, hun⟩⟩
    · cases hm
    · cases hm
    · by_contra hne
      simp [Kernel.start, hne] at hc
  · intro k l k' hr hk _ hs
    have hi := reachable_inv hr.reachable
    exact ⟨hk.table_step hi hs, hk.copied_step hi hs, hk.inited_step hs, hk.booting_step hi hs⟩

end Threads

end EnhancedXv6
