import EnhancedXv6.FileWrite
import EnhancedXv6.Transition
import Mathlib.Algebra.BigOperators.Group.Finset.Piecewise
import Mathlib.Algebra.Order.BigOperators.Group.Finset

namespace EnhancedXv6.Blocks

open Command Bytes Fs Transition Machine

section Pieces

variable {α : Type*} {l : List (ℕ × List α)}

def pieces (k : ℕ) (l : List (ℕ × List α)) : List α := ((l.filter (fun x => x.1 = k)).map Prod.snd).flatten

theorem pieces_append (k : ℕ) (l : List (ℕ × List α)) (x : ℕ × List α) :
    pieces k (l ++ [x]) = if x.1 = k then pieces k l ++ x.2 else pieces k l := by
  unfold pieces
  by_cases h : x.1 = k <;> simp [List.filter_append, h]

theorem pieces_eq_nil {n : ℕ} (h : ∀ x ∈ l, x.1 < n) : pieces n l = [] := by
  rw [pieces, List.filter_eq_nil_iff.mpr]
  · rfl
  · intro x hx
    simpa using (h x hx).ne

theorem length_pieces (l : List (ℕ × List α)) {n : ℕ} (h : ∀ x ∈ l, x.1 < n) :
    ((l.map Prod.snd).flatten).length = ∑ k ∈ Finset.range n, (pieces k l).length := by
  induction l using List.reverseRecOn with
  | nil => simp [pieces]
  | append_singleton l x ih =>
    have hx : x.1 ∈ Finset.range n := Finset.mem_range.mpr (h x (by simp))
    have hsum : ∀ k, (pieces k (l ++ [x])).length = (pieces k l).length + if x.1 = k then x.2.length else 0 := by
      intro k
      rw [pieces_append]
      split_ifs <;> simp
    simp only [hsum, Finset.sum_add_distrib, Finset.sum_ite_eq, if_pos hx]
    rw [← ih (fun y hy => h y (by simp [hy]))]
    simp

theorem sum_length (bufs : List (List α)) :
    (bufs.map List.length).sum = ∑ k ∈ Finset.range bufs.length, (bufs.getD k []).length := by
  induction bufs with
  | nil => rfl
  | cons b bufs ih =>
    rw [List.map_cons, List.sum_cons, List.length_cons, Finset.sum_range_succ', ih, Nat.add_comm]
    rfl

theorem length_pieces_eq {bufs : List (List α)} (h : ∀ x ∈ l, x.1 < bufs.length)
    (he : ∀ k buf, bufs[k]? = some buf → pieces k l = buf) : ((l.map Prod.snd).flatten).length = (bufs.map List.length).sum := by
  rw [length_pieces l h, sum_length]
  refine Finset.sum_congr rfl (fun k hk => ?_)
  rw [he k (bufs.getD k [])]
  rw [List.getElem?_eq_getElem (Finset.mem_range.mp hk), List.getD_eq_getElem _ _ (Finset.mem_range.mp hk)]

theorem length_pieces_le {bufs : List (List α)} (h : ∀ x ∈ l, x.1 < bufs.length)
    (hle : ∀ k buf, bufs[k]? = some buf → (pieces k l).length ≤ buf.length) :
    ((l.map Prod.snd).flatten).length ≤ (bufs.map List.length).sum := by
  rw [length_pieces l h]
  rw [sum_length]
  refine Finset.sum_le_sum (fun k hk => hle k _ ?_)
  rw [List.getElem?_eq_getElem (Finset.mem_range.mp hk), List.getD_eq_getElem _ _ (Finset.mem_range.mp hk)]

end Pieces

variable {P : Type*}

inductive Status
  | idle
  | loop (w : Write)
  | out (r : ℤ)

def Status.returned : Status → Option ℤ
  | out r => some r
  | _ => none

structure Sharing (P : Type*) where
  fs : State
  off : UInt32
  call : P → Status := fun _ => .idle
  panicked : Option String := none

inductive Label (P : Type*)
  | call (p : P) (addr : Mem) (n : ℤ)
  | run (p : P)

def Write.result (w : Write) : ℤ := if w.i = w.n then w.n else -1

namespace Sharing

variable [DecidableEq P]

def setCall (s : Sharing P) (p : P) (c : Status) : Sharing P := { s with call := Function.update s.call p c }

def turn (sb : Superblock) (ip : ℕ) (s : Sharing P) (p : P) (w : Write) : Option (Sharing P) :=
  match Command.run (exec sb) (w.turn ip s.off) s.fs with
  | .error (Stop.panic msg) => some { s with panicked := some msg }
  | .error _ => none
  | .ok (r, fs) =>
    let s := { s with fs := fs, off := if r > 0 then s.off + UInt32.ofInt r else s.off }
    if r < 0 then some (s.setCall p (.out w.result))
    else if r ≠ w.n1 then some { s with panicked := some "short filewrite" }
    else some (s.setCall p (.loop { w with i := w.i + r }))

def step (sb : Superblock) (ip : ℕ) (s : Sharing P) (l : Label P) : Option (Sharing P) :=
  if s.panicked.isSome then none
  else match l with
    | .call p addr n => match s.call p with
      | .loop _ => none
      | _ => some (s.setCall p (.loop { addr, n }))
    | .run p => match s.call p with
      | .loop w => if w.i < w.n then s.turn sb ip p w else some (s.setCall p (.out w.result))
      | _ => none

end Sharing

structure Appends (P : Type*) where
  old : List UInt8
  bufs : List (List UInt8) := []
  number : P → ℕ := fun _ => 0
  chunks : List (ℕ × List UInt8) := []

section Machine

variable [DecidableEq P]

def Appends.record (sb : Superblock) (ip : ℕ) (g : Appends P) (s : Sharing P) : Label P → Appends P
  | .call p addr n => { g with bufs := g.bufs ++ [(List.range n.toNat).map addr], number := Function.update g.number p g.bufs.length }
  | .run p => match s.call p with
    | .loop w => if w.i < w.n then
        match Command.run (exec sb) (w.turn ip s.off) s.fs with
        | .ok (r, _) => { g with chunks := g.chunks ++ [(g.number p, (List.range r.toNat).map w.src)] }
        | .error _ => g
      else g
    | _ => g

def sharing (sb : Superblock) (ip : ℕ) (P : Type*) [DecidableEq P] : Machine (Sharing P × Appends P) (Label P) where
  initial x := Guarded sb ip x.1.fs ∧ (x.1.fs.cur ip).type = .file ∧ x.1.off.toNat = x.1.fs.size ip ∧
    x.1.call = (fun _ => .idle) ∧ x.1.panicked = none ∧ x.2 = { old := x.1.fs.contents ip }
  next x l := (x.1.step sb ip l).map (fun t => (t, x.2.record sb ip x.1 l))

def Fits (x : Sharing P × Appends P) : Label P → Prop
  | .call _ _ n => 0 ≤ n ∧ x.2.old.length + (x.2.bufs.map List.length).sum + n.toNat ≤ MAXFILE * BSIZE
  | .run _ => True

instance (x : Sharing P × Appends P) : (l : Label P) → Decidable (Fits x l)
  | .call _ _ _ => inferInstanceAs (Decidable (_ ∧ _))
  | .run _ => inferInstanceAs (Decidable True)

end Machine

section Turn

variable {sb : Superblock} {ip : ℕ} {s : State} {off : UInt32} {w : Write}

theorem exec_load (sb : Superblock) (ht : (s.cur ip).type ≠ .free) :
    ∃ t, exec sb (.load ip) s = .ok ((), t) ∧ t.mem ip = some (s.cur ip) ∧ t.cur = s.cur ∧ t.block = s.block := by
  cases hm : s.mem ip with
  | some x =>
    refine ⟨s, by simp only [exec, hm], ?_, rfl, rfl⟩
    rw [hm, State.cur, hm]
    rfl
  | none =>
    have hcur : s.cur ip = s.dinode ip := by rw [State.cur, hm]; rfl
    rw [hcur] at ht
    refine ⟨s.setMem ip (some (s.dinode ip)), by simp only [exec, hm, if_neg ht], ?_, ?_, rfl⟩
    · rw [State.setMem_self, hcur]
    · funext j
      by_cases hj : j = ip
      · subst hj
        rw [cur_setMem_self, hcur]
      · exact cur_setMem_of_ne s _ hj

theorem run_turn (h : Guarded sb ip s) (ht : (s.cur ip).type = .file) (hoff : off.toNat = s.size ip) (hw : w.i < w.n)
    (hmax : s.size ip + w.n1.toNat ≤ MAXFILE * BSIZE) :
    (Command.run (exec sb) (w.turn ip off) s = .error (.panic "balloc: out of blocks") ∧
      s.freeCount sb < s.vacant ip (writeSlots off.toNat w.n1.toNat)) ∨
    ∃ u, Command.run (exec sb) (w.turn ip off) s = .ok (w.n1, u) ∧ Guarded sb ip u ∧ (u.cur ip).type = .file ∧
      u.size ip = s.size ip + w.n1.toNat ∧ u.contents ip = s.contents ip ++ (List.range w.n1.toNat).map w.src := by
  have hfree : (s.cur ip).type ≠ .free := by
    rw [ht]
    decide
  obtain ⟨t, hload, hm, hcur, hblock⟩ := exec_load sb hfree
  have hrefs : t.refs = s.refs := refs_of_cur hblock (fun j => by rw [hcur]; exact ⟨rfl, rfl⟩)
  have hsize : t.size ip = s.size ip := by rw [State.size, State.size, hcur]
  have hcontents : t.contents ip = s.contents ip := by
    have hbyte : t.byte ip = s.byte ip := by
      funext x
      rw [State.byte, State.byte, State.file, State.file, hrefs, hblock]
    rw [State.contents, State.contents, hsize, hbyte]
  have hvacant : t.vacant ip = s.vacant ip := by
    funext K
    rw [State.vacant, State.vacant, hrefs]
  have hfree : t.freeCount sb = s.freeCount sb := by
    have hbit : t.bit sb = s.bit sb := by
      funext b
      rw [State.bit, State.bit, hblock]
    rw [State.freeCount, State.freeCount, hbit]
  have hn := Write.toNat_n1 hw
  have hpos := Write.n1_pos hw
  have hnr : ¬ Refused (s.cur ip) off (UInt32.ofInt w.n1) := by
    have hle : off.toNat + (UInt32.ofInt w.n1).toNat ≤ 71680 := by
      rw [hn, hoff]
      exact hmax
    have hwrap : ¬ off + UInt32.ofInt w.n1 < off := by
      rw [add_lt_left]
      omega
    rintro (hr | hr | hr)
    · rw [gt_iff_lt, UInt32.lt_iff_toNat_lt, hoff] at hr
      exact lt_irrefl _ hr
    · exact hwrap hr
    · rw [toNat_add hwrap] at hr
      exact absurd hle (not_le.mpr hr)
  have hwp : wp (safe sb (fun e => e = .panic "balloc: out of blocks" ∧ s.freeCount sb < s.vacant ip (writeSlots off.toNat w.n1.toNat)))
      (w.turn ip off) s (fun r u => r = w.n1 ∧ Saved sb ip off.toNat w.n1.toNat w.src (s.cur ip) t u) := by
    refine wp_op hload (by intro e; cases e) ?_
    refine wp_writei (h.congr hblock hrefs) hm (by rw [ht]; decide) (by rw [ht]; decide) (fun hr => absurd hr hnr) (fun _ hlt => ?_) (fun _ u hu => ?_)
    · rw [hfree, hvacant, hn] at hlt
      exact ⟨rfl, hlt⟩
    · rw [hn] at hu ⊢
      exact ⟨Int.toNat_of_nonneg hpos.le, hu⟩
  obtain ⟨e, hrun, rfl, hlt⟩ | ⟨r, u, hrun, rfl, hu⟩ := run_of_wp hwp
  · exact .inl ⟨hrun, hlt⟩
  · right
    rw [← hn] at hu
    obtain ⟨a, z, hmu, -⟩ := hu.inode
    refine ⟨u, hrun, hu.guarded, ?_, ?_, ?_⟩
    · rw [cur_of_mem hmu]
      exact ht
    · rw [hu.size_eq hm, hsize, hoff, hn]
      omega
    · have hlen : (s.contents ip).length = s.size ip := by rw [State.contents, List.length_map, List.length_range]
      rw [hu.contents_eq hm (by rw [hsize, hoff]), hcontents, List.take_of_length_le (by rw [hlen, hoff]),
        List.drop_of_length_le (by rw [hlen, hoff]; omega), List.append_nil, hn]

end Turn

structure Appended (sb : Superblock) (ip : ℕ) (s : Sharing P) (g : Appends P) : Prop where
  guarded : Guarded sb ip s.fs
  regular : (s.fs.cur ip).type = .file
  size : s.off.toNat = s.fs.size ip
  contents : s.fs.contents ip = g.old ++ (g.chunks.map Prod.snd).flatten
  fits : g.bufs ≠ [] → g.old.length + (g.bufs.map List.length).sum ≤ MAXFILE * BSIZE
  tagged : ∀ x ∈ g.chunks, x.1 < g.bufs.length
  panic : s.panicked ≠ some "short filewrite"
  loop : ∀ p w, s.call p = .loop w → 0 ≤ w.i ∧ w.i ≤ w.n ∧ g.bufs[g.number p]? = some ((List.range w.n.toNat).map w.addr) ∧
    pieces (g.number p) g.chunks = (List.range w.i.toNat).map w.addr
  out : ∀ p r, s.call p = .out r → ∃ buf, g.bufs[g.number p]? = some buf ∧ r = buf.length
  complete : ∀ k buf, g.bufs[k]? = some buf → (∀ p w, s.call p = .loop w → g.number p ≠ k) → pieces k g.chunks = buf
  apart : ∀ p q w, s.call p = .loop w → s.call q ≠ .idle → g.number p = g.number q → p = q

namespace Appended

variable {sb : Superblock} {ip : ℕ} {s t : Sharing P} {g : Appends P} {p : P} {w : Write}

theorem number_lt (h : Appended sb ip s g) (hp : s.call p ≠ .idle) : g.number p < g.bufs.length := by
  cases hc : s.call p with
  | idle => exact absurd hc hp
  | loop w => exact (List.getElem?_eq_some_iff.mp (h.loop p w hc).2.2.1).1
  | out r =>
    obtain ⟨buf, hbuf, -⟩ := h.out p r hc
    exact (List.getElem?_eq_some_iff.mp hbuf).1

theorem loop_ne (hp : s.call p = .loop w) : s.call p ≠ .idle := by
  rw [hp]
  intro e
  cases e

theorem pieces_le (h : Appended sb ip s g) {k : ℕ} {buf : List UInt8} (hk : g.bufs[k]? = some buf) : (pieces k g.chunks).length ≤ buf.length := by
  by_cases hp : ∃ p w, s.call p = .loop w ∧ g.number p = k
  · obtain ⟨p, w, hp, rfl⟩ := hp
    obtain ⟨h0, hle, hbuf, hpieces⟩ := h.loop p w hp
    rw [hk] at hbuf
    rw [Option.some.inj hbuf, hpieces, List.length_map, List.length_map, List.length_range, List.length_range]
    omega
  · rw [h.complete k buf hk (fun p w hw e => hp ⟨p, w, hw, e⟩)]

theorem room (h : Appended sb ip s g) (hp : s.call p = .loop w) (hw : w.i < w.n) : s.fs.size ip + w.n1.toNat ≤ MAXFILE * BSIZE := by
  obtain ⟨h0, hle, hbuf, hpieces⟩ := h.loop p w hp
  have hnum := h.number_lt (loop_ne hp)
  have hsum : (((g.chunks ++ [(g.number p, (List.range w.n1.toNat).map w.src)]).map Prod.snd).flatten).length ≤
      (g.bufs.map List.length).sum := by
    apply length_pieces_le
    · intro x hx
      rcases List.mem_append.mp hx with hx | hx
      · exact h.tagged x hx
      · rw [List.mem_singleton.mp hx]
        exact hnum
    · intro k buf hk
      rw [pieces_append]
      by_cases e : g.number p = k
      · subst e
        rw [hk] at hbuf
        rw [if_pos rfl, hpieces, Write.map_src h0 hw, Option.some.inj hbuf, List.length_map, List.length_map, List.length_range,
          List.length_range]
        exact Int.toNat_le_toNat w.add_n1_le
      · rw [if_neg e]
        exact h.pieces_le hk
  have hlen : s.fs.size ip = (s.fs.contents ip).length := by rw [State.contents, List.length_map, List.length_range]
  have hfits := h.fits (List.ne_nil_of_length_pos (by omega))
  rw [List.map_append, List.flatten_append, List.length_append, List.map_singleton, List.flatten_singleton, List.length_map,
    List.length_range] at hsum
  rw [hlen, h.contents, List.length_append]
  omega

theorem init (hg : Guarded sb ip s.fs) (ht : (s.fs.cur ip).type = .file) (hoff : s.off.toNat = s.fs.size ip)
    (hc : s.call = fun _ => .idle) (hp : s.panicked = none) : Appended sb ip s { old := s.fs.contents ip } where
  guarded := hg
  regular := ht
  size := hoff
  contents := by simp
  fits h := absurd rfl h
  tagged := by simp
  panic := by simp [hp]
  loop p w h := by simp [hc] at h
  out p r h := by simp [hc] at h
  complete k buf h := by simp at h
  apart p q w h := by simp [hc] at h

theorem panicked (h : Appended sb ip s g) {msg : String} (hm : msg ≠ "short filewrite") : Appended sb ip { s with panicked := some msg } g where
  guarded := h.guarded
  regular := h.regular
  size := h.size
  contents := h.contents
  fits := h.fits
  tagged := h.tagged
  panic e := hm (Option.some.inj e)
  loop := h.loop
  out := h.out
  complete := h.complete
  apart := h.apart

variable [DecidableEq P]

theorem setCall_self (s : Sharing P) (p : P) (c : Status) : (s.setCall p c).call p = c := Function.update_self ..

theorem setCall_of_ne (s : Sharing P) {p q : P} (c : Status) (h : q ≠ p) : (s.setCall p c).call q = s.call q := Function.update_of_ne h ..

theorem call (h : Appended sb ip s g) (hp : ∀ w, s.call p ≠ .loop w) (addr : Mem) {n : ℤ} (hn : 0 ≤ n)
    (hfits : g.old.length + (g.bufs.map List.length).sum + n.toNat ≤ MAXFILE * BSIZE) :
    Appended sb ip (s.setCall p (.loop { addr, n })) (g.record sb ip s (.call p addr n)) := by
  have hnew : (g.record sb ip s (.call p addr n)).number p = g.bufs.length := Function.update_self ..
  have hold : ∀ q ≠ p, (g.record sb ip s (.call p addr n)).number q = g.number q := fun q hq => Function.update_of_ne hq ..
  have hbufs : (g.record sb ip s (.call p addr n)).bufs = g.bufs ++ [(List.range n.toNat).map addr] := rfl
  refine ⟨h.guarded, h.regular, h.size, h.contents, fun _ => ?_, fun x hx => ?_, h.panic, fun q w hq => ?_, fun q r hq => ?_,
    fun k buf hk hover => ?_, fun q r w hq hr e => ?_⟩
  · rw [hbufs, List.map_append, List.sum_append]
    change g.old.length + _ ≤ _
    simpa [Nat.add_assoc] using hfits
  · have := h.tagged x hx
    rw [hbufs, List.length_append]
    omega
  · by_cases e : q = p
    · subst e
      rw [setCall_self] at hq
      cases hq
      refine ⟨le_refl _, hn, ?_, ?_⟩
      · rw [hnew, hbufs, List.getElem?_concat_length]
      · rw [hnew]
        exact pieces_eq_nil h.tagged
    · rw [setCall_of_ne _ _ e] at hq
      obtain ⟨h0, hle, hbuf, hpieces⟩ := h.loop q w hq
      rw [hold q e, hbufs, List.getElem?_append_left (h.number_lt (loop_ne hq))]
      exact ⟨h0, hle, hbuf, hpieces⟩
  · have e : q ≠ p := by
      rintro rfl
      rw [setCall_self] at hq
      cases hq
    rw [setCall_of_ne _ _ e] at hq
    obtain ⟨buf, hbuf, hr⟩ := h.out q r hq
    refine ⟨buf, ?_, hr⟩
    rw [hold q e, hbufs, List.getElem?_append_left (List.getElem?_eq_some_iff.mp hbuf).1]
    exact hbuf
  · have hne : k ≠ g.bufs.length := by
      rintro rfl
      exact hover p _ (setCall_self s p _) hnew
    have hlt : k < g.bufs.length := by
      have := (List.getElem?_eq_some_iff.mp hk).1
      rw [hbufs, List.length_append, List.length_singleton] at this
      omega
    rw [hbufs, List.getElem?_append_left hlt] at hk
    refine h.complete k buf hk (fun q w hq => ?_)
    have e : q ≠ p := by
      rintro rfl
      exact hp w hq
    rw [← hold q e]
    exact hover q w (by rw [setCall_of_ne _ _ e]; exact hq)
  · by_cases eq : q = p
    · by_cases er : r = p
      · rw [eq, er]
      · rw [setCall_of_ne _ _ er] at hr
        have := h.number_lt hr
        rw [eq, hnew, hold r er] at e
        omega
    · rw [setCall_of_ne _ _ eq] at hq
      by_cases er : r = p
      · have := h.number_lt (loop_ne hq)
        rw [er, hnew, hold q eq] at e
        omega
      · rw [setCall_of_ne _ _ er] at hr
        rw [hold q eq, hold r er] at e
        exact h.apart q r w hq hr e

theorem finish (h : Appended sb ip s g) (hp : s.call p = .loop w) (hw : ¬ w.i < w.n) : Appended sb ip (s.setCall p (.out w.result)) g := by
  obtain ⟨h0, hle, hbuf, hpieces⟩ := h.loop p w hp
  have hi : w.i = w.n := by omega
  have hlt : ∀ q v, (s.setCall p (.out w.result)).call q = .loop v → q ≠ p ∧ s.call q = .loop v := by
    intro q v hq
    have e : q ≠ p := by
      rintro rfl
      rw [setCall_self] at hq
      cases hq
    exact ⟨e, by rwa [setCall_of_ne _ _ e] at hq⟩
  refine ⟨h.guarded, h.regular, h.size, h.contents, h.fits, h.tagged, h.panic, fun q v hq => h.loop q v (hlt q v hq).2, fun q r hq => ?_,
    fun k buf hk hover => ?_, fun q r v hq hr e => h.apart q r v (hlt q v hq).2 (fun hr' => ?_) e⟩
  · by_cases e : q = p
    · subst e
      rw [setCall_self] at hq
      cases hq
      refine ⟨_, hbuf, ?_⟩
      rw [Write.result, if_pos hi, List.length_map, List.length_range]
      omega
    · rw [setCall_of_ne _ _ e] at hq
      exact h.out q r hq
  · by_cases e : g.number p = k
    · subst e
      rw [hbuf] at hk
      rw [← Option.some.inj hk, hpieces, hi]
    · refine h.complete k buf hk (fun q v hq => ?_)
      by_cases eq : q = p
      · rw [eq]
        exact e
      · exact hover q v (by rw [setCall_of_ne _ _ eq]; exact hq)
  · have er : r ≠ p := by
      rintro rfl
      exact loop_ne hp hr'
    exact hr (by rw [setCall_of_ne _ _ er]; exact hr')

theorem turn (h : Appended sb ip s g) (hp : s.call p = .loop w) (hw : w.i < w.n) {u : State} {off : UInt32} (hg : Guarded sb ip u)
    (ht : (u.cur ip).type = .file) (hoff : off.toNat = u.size ip)
    (hc : u.contents ip = s.fs.contents ip ++ (List.range w.n1.toNat).map w.src) :
    Appended sb ip ({ s with fs := u, off := off }.setCall p (.loop { w with i := w.i + w.n1 }))
      { g with chunks := g.chunks ++ [(g.number p, (List.range w.n1.toNat).map w.src)] } := by
  obtain ⟨h0, hle, hbuf, hpieces⟩ := h.loop p w hp
  have hpos := Write.n1_pos hw
  have hother : ∀ q v, s.call q = .loop v → q ≠ p → pieces (g.number q) (g.chunks ++ [(g.number p, (List.range w.n1.toNat).map w.src)]) =
      pieces (g.number q) g.chunks := by
    intro q v hq e
    rw [pieces_append, if_neg (fun he => e (h.apart q p v hq (loop_ne hp) he.symm))]
  have hloop : ∀ q v, (s.setCall p (.loop { w with i := w.i + w.n1 })).call q = .loop v → ∃ v, s.call q = .loop v := by
    intro q v hq
    by_cases e : q = p
    · rw [e]
      exact ⟨w, hp⟩
    · rw [setCall_of_ne _ _ e] at hq
      exact ⟨v, hq⟩
  refine ⟨hg, ht, hoff, ?_, h.fits, fun x hx => ?_, h.panic, fun q v hq => ?_, fun q r hq => ?_, fun k buf hk hover => ?_,
    fun q r v hq hr e => ?_⟩
  · change u.contents ip = _
    rw [hc, h.contents, List.map_append, List.flatten_append, List.append_assoc]
    simp
  · rcases List.mem_append.mp hx with hx | hx
    · exact h.tagged x hx
    · rw [List.mem_singleton.mp hx]
      exact h.number_lt (loop_ne hp)
  · by_cases e : q = p
    · subst e
      rw [setCall_self] at hq
      cases hq
      refine ⟨by dsimp only; omega, w.add_n1_le, hbuf, ?_⟩
      dsimp only
      rw [pieces_append, if_pos rfl, hpieces, Write.map_src h0 hw]
    · rw [setCall_of_ne _ _ e] at hq
      obtain ⟨h0, hle, hbuf, hpieces⟩ := h.loop q v hq
      exact ⟨h0, hle, hbuf, (hother q v hq e).trans hpieces⟩
  · have e : q ≠ p := by
      rintro rfl
      rw [setCall_self] at hq
      cases hq
    rw [setCall_of_ne _ _ e] at hq
    exact h.out q r hq
  · have hne : g.number p ≠ k := hover p _ (setCall_self _ p _)
    dsimp only
    rw [pieces_append, if_neg hne]
    refine h.complete k buf hk (fun q v hq => ?_)
    by_cases e : q = p
    · rw [e]
      exact hne
    · exact hover q v (by rw [setCall_of_ne _ _ e]; exact hq)
  · obtain ⟨v, hq⟩ := hloop q v hq
    refine h.apart q r v hq (fun hr' => hr ?_) e
    have er : r ≠ p := by
      rintro rfl
      exact loop_ne hp hr'
    rw [setCall_of_ne _ _ er]
    exact hr'

inductive Ran (sb : Superblock) (ip : ℕ) (s : Sharing P) (p : P) (w : Write) : Sharing P → Prop
  | full (hw : w.i < w.n) (h : s.fs.freeCount sb < s.fs.vacant ip (writeSlots s.off.toNat w.n1.toNat)) :
    Ran sb ip s p w { s with panicked := some "balloc: out of blocks" }
  | turn (hw : w.i < w.n) (u : State) (off : UInt32) (hu : off.toNat = u.size ip) :
    Ran sb ip s p w ({ s with fs := u, off := off }.setCall p (.loop { w with i := w.i + w.n1 }))
  | finish (hw : w.i = w.n) : Ran sb ip s p w (s.setCall p (.out w.n))

theorem run (h : Appended sb ip s g) (hs : s.panicked = none) (hp : s.call p = .loop w) :
    ∃ t, s.step sb ip (.run p) = some t ∧ Appended sb ip t (g.record sb ip s (.run p)) ∧ Ran sb ip s p w t := by
  have hstep : s.step sb ip (.run p) = if w.i < w.n then s.turn sb ip p w else some (s.setCall p (.out w.result)) := by
    simp only [Sharing.step, hs, hp, Option.isSome_none, Bool.false_eq_true, if_false]
  by_cases hw : w.i < w.n
  · rw [hstep, if_pos hw, Sharing.turn]
    have hpos := Write.n1_pos hw
    obtain ⟨hrun, hlt⟩ | ⟨u, hrun, hg, ht, hsize, hc⟩ := run_turn h.guarded h.regular h.size hw (h.room hp hw)
    · have hrec : g.record sb ip s (.run p) = g := by simp only [Appends.record, hp, if_pos hw, hrun]
      rw [hrun, hrec]
      exact ⟨_, rfl, h.panicked (by decide), .full hw hlt⟩
    · have hrec : g.record sb ip s (.run p) = { g with chunks := g.chunks ++ [(g.number p, (List.range w.n1.toNat).map w.src)] } := by
        simp only [Appends.record, hp, if_pos hw, hrun]
      have hoff : (s.off + UInt32.ofInt w.n1).toNat = u.size ip := by
        have hroom := h.room hp hw
        simp only [MAXFILE, NDIRECT, NINDIRECT, BSIZE] at hroom
        rw [UInt32.toNat_add, Write.toNat_n1 hw, h.size, hsize]
        omega
      rw [hrun, hrec]
      dsimp only
      rw [if_pos hpos, if_neg (by omega), if_neg (by simp)]
      exact ⟨_, rfl, h.turn hp hw hg ht hoff hc, .turn hw u _ hoff⟩
  · obtain ⟨-, hle, -, -⟩ := h.loop p w hp
    have hrec : g.record sb ip s (.run p) = g := by simp only [Appends.record, hp, if_neg hw]
    have hres : w.result = w.n := if_pos (by omega)
    rw [hstep, if_neg hw, hrec]
    refine ⟨_, rfl, h.finish hp hw, ?_⟩
    rw [hres]
    exact .finish (by omega)

end Appended

variable [DecidableEq P]

theorem reachable_appended {sb : Superblock} {ip : ℕ} {x : Sharing P × Appends P} (h : (sharing sb ip P).ReachableWhere Fits x) :
    Appended sb ip x.1 x.2 := by
  refine h.invariant (P := fun x => Appended sb ip x.1 x.2) ?_ ?_
  · rintro ⟨s, g⟩ ⟨hg, ht, hoff, hc, hp, hgs⟩
    change g = { old := s.fs.contents ip } at hgs
    rw [hgs]
    exact .init hg ht hoff hc hp
  · rintro ⟨s, g⟩ l ⟨t, g'⟩ - ha hfits hn
    obtain ⟨u, hu, he⟩ := Option.map_eq_some_iff.mp hn
    cases he
    dsimp only at ha hu ⊢
    have hs : s.panicked = none := by
      unfold Sharing.step at hu
      split_ifs at hu with hs
      exact Option.not_isSome_iff_eq_none.mp hs
    cases l with
    | call p addr n =>
      obtain ⟨hpos, hsum⟩ := hfits
      simp only [Sharing.step, hs, Option.isSome_none, Bool.false_eq_true, if_false] at hu
      cases hp : s.call p with
      | loop w =>
        rw [hp] at hu
        cases hu
      | idle =>
        rw [hp] at hu
        cases hu
        exact ha.call (by simp [hp]) addr hpos hsum
      | out r =>
        rw [hp] at hu
        cases hu
        exact ha.call (by simp [hp]) addr hpos hsum
    | run p =>
      cases hp : s.call p with
      | loop w =>
        obtain ⟨t', ht', ha', -⟩ := ha.run hs hp
        rw [ht'] at hu
        cases hu
        exact ha'
      | idle => simp [Sharing.step, hs, hp] at hu
      | out r => simp [Sharing.step, hs, hp] at hu

theorem shared_offset_appends (sb : Superblock) (ip : ℕ) (x : Sharing P × Appends P) (h : (sharing sb ip P).ReachableWhere Fits x) :
    x.1.panicked ≠ some "short filewrite" ∧ x.1.off.toNat = x.1.fs.size ip ∧
    x.1.fs.contents ip = x.2.old ++ (x.2.chunks.map Prod.snd).flatten ∧
    (∀ p w, x.1.call p = .loop w → x.2.bufs[x.2.number p]? = some ((List.range w.n.toNat).map w.addr) ∧
      pieces (x.2.number p) x.2.chunks = (List.range w.i.toNat).map w.addr ∧
      (x.1.panicked = none → ∃ y, (sharing sb ip P).next x (.run p) = some y ∧ Appended.Ran sb ip x.1 p w y.1)) ∧
    (∀ p r, x.1.call p = .out r → ∃ buf, x.2.bufs[x.2.number p]? = some buf ∧ r = buf.length ∧ pieces (x.2.number p) x.2.chunks = buf) ∧
    ((∀ p w, x.1.call p ≠ .loop w) → x.1.off.toNat = x.2.old.length + (x.2.bufs.map List.length).sum ∧
      ∀ k buf, x.2.bufs[k]? = some buf → pieces k x.2.chunks = buf) := by
  have ha := reachable_appended h
  refine ⟨ha.panic, ha.size, ha.contents, fun p w hp => ?_, fun p r hp => ?_, fun hend => ?_⟩
  · obtain ⟨-, -, hbuf, hpieces⟩ := ha.loop p w hp
    refine ⟨hbuf, hpieces, fun hs => ?_⟩
    obtain ⟨t, ht, -, hran⟩ := ha.run hs hp
    exact ⟨(t, _), congrArg (Option.map _) ht, hran⟩
  · obtain ⟨buf, hbuf, hr⟩ := ha.out p r hp
    refine ⟨buf, hbuf, hr, ha.complete _ buf hbuf (fun q w hq e => ?_)⟩
    have hqp := ha.apart q p w hq (by rw [hp]; intro e; cases e) e
    rw [hqp, hp] at hq
    cases hq
  · have hover : ∀ k buf, x.2.bufs[k]? = some buf → pieces k x.2.chunks = buf :=
      fun k buf hk => ha.complete k buf hk (fun p w hp => absurd hp (hend p w))
    have hlen : x.1.fs.size ip = (x.1.fs.contents ip).length := by rw [State.contents, List.length_map, List.length_range]
    refine ⟨?_, hover⟩
    rw [ha.size, hlen, ha.contents, List.length_append, length_pieces_eq ha.tagged hover]

theorem shared_offset_appends_two : ∃ x : Sharing (Fin 2) × Appends (Fin 2), (x.1.call 0).returned = some 2 ∧ (x.1.call 1).returned = some 1 ∧
    x.1.fs.contents 1 = [0, 0, 0, 9, 7, 7] := by
  obtain ⟨x, hx, hP⟩ := exists_reachableWhere (M := sharing small 1 (Fin 2)) (C := Fits)
    (s := ({ fs := single 7 threeBytes, off := 3 }, { old := [0, 0, 0] }))
    (w := [.call 0 (fun _ => 7) 2, .call 1 (fun _ => 9) 1, .run 1, .run 0, .run 0, .run 1])
    (P := fun x => decide ((x.1.call 0).returned = some 2 ∧ (x.1.call 1).returned = some 1 ∧ x.2.old = [0, 0, 0] ∧
      x.2.chunks = [(1, [9]), (0, [7, 7])])) ⟨threeBytes_guarded, rfl, rfl, rfl, rfl, rfl⟩ (by decide +kernel)
  obtain ⟨h0, h1, hold, hchunks⟩ := of_decide_eq_true hP
  have hc := (shared_offset_appends small 1 x hx).2.2.1
  rw [hold, hchunks] at hc
  exact ⟨x, h0, h1, hc⟩

end EnhancedXv6.Blocks
