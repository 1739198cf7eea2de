import EnhancedXv6.Levels

namespace EnhancedXv6.Scheduler

open ProcTable Table

variable {t u v : Table} {i : ℕ} {p : Slot} {l : List Slot} {done rest : List Slot} {fuel : ℕ}

def Starved (t : Table) (i : ℕ) (p : Slot) : Prop := patienceThreshold i < (t.proc p).currWaitTime

instance (t : Table) (i : ℕ) (p : Slot) : Decidable (Starved t i p) := inferInstanceAs (Decidable (_ < _))

def starved (t : Table) (i : ℕ) : List Slot := (t.queue i).filter (fun p => Starved t i p)

def promote (i : ℕ) (t : Table) (p : Slot) : Table :=
  (((t.deleteProcess p i).1.setProc p (fun r => { r with currWaitTime := 0 })).pushBackProcess p (i - 1)).1

def Spaced (t : Table) (i : ℕ) : Prop := (t.queue i).IsChain (fun p r => ¬ (Starved t i p ∧ Starved t i r))

structure Apart (t : Table) : Prop where
  holds : ∀ q < 5, Holds t q (t.queue q)
  nodup : ∀ q < 5, (pidsOf t (t.queue q)).Nodup
  disjoint : ∀ q < 5, ∀ r < 5, q ≠ r → ∀ p ∈ t.queue q, ∀ s ∈ t.queue r, (t.proc p).pid ≠ (t.proc s).pid

structure Promoted (i : ℕ) (l : List Slot) (t u : Table) : Prop where
  apart : Apart u
  source : u.queue i = (t.queue i).filter (fun p => p ∉ l)
  target : u.queue (i - 1) = t.queue (i - 1) ++ l
  others : ∀ r < 5, r ≠ i → r ≠ i - 1 → u.queue r = t.queue r
  wait : ∀ p, (u.proc p).currWaitTime = if p ∈ l then 0 else (t.proc p).currWaitTime

namespace Apart

theorem nodup_queue (h : Apart t) (hi : i < 5) : (t.queue i).Nodup := List.Nodup.of_map _ (h.nodup i hi)

theorem length_queue (h : Apart t) (hi : i < 5) : t.qLatestIdx i + 1 = (t.queue i).length := (h.holds i hi).last

theorem queuePtr_eq (h : Apart t) (hi : i < 5) (hq : t.queue i = done ++ p :: rest) :
    t.queuePtr i done.length = some p := by
  have hlt : done.length < (t.queue i).length := by
    rw [hq, List.length_append, List.length_cons]
    omega
  rw [(h.holds i hi).ptr _ hlt, hq, List.getElem?_append_right (le_refl _), Nat.sub_self, List.getElem?_cons_zero]

theorem eq_of_mem (h : Apart t) {r : ℕ} (hi : i < 5) (hr : r < 5) (hp : p ∈ t.queue i) (hp' : p ∈ t.queue r) :
    i = r := by
  by_contra hne
  exact h.disjoint i hi r hr hne p hp p hp' rfl

theorem pid_ne (h : Apart t) {r : ℕ} {s : Slot} (hi : i < 5) (hr : r < 5) (hp : p ∈ t.queue i) (hs : s ∈ t.queue r)
    (hne : p ≠ s) : (t.proc p).pid ≠ (t.proc s).pid := by
  by_cases e : i = r
  · subst e
    exact fun hpid => hne (List.inj_on_of_nodup_map (h.nodup i hi) hp hs hpid)
  · exact h.disjoint i hi r hr e p hp s hs

theorem of_queues (h : Apart t) (hi : i < 5) (hp : p ∈ t.queue i) {k : ℕ} (hk : k ≠ i)
    (hpid : ∀ r, (u.proc r).pid = (t.proc r).pid)
    (hu : ∀ r < 5, Holds u r (if r = i then (t.queue i).erase p else if r = k then t.queue k ++ [p] else t.queue r)) :
    Apart u := by
  have hold : ∀ r < 5, ∀ s ∈ u.queue r, (s ∈ t.queue r ∧ s ≠ p) ∨ (r = k ∧ s = p) := by
    intro r hr s hs
    rw [(hu r hr).queue_eq] at hs
    have hother : r ≠ i → s ∈ t.queue r → s ≠ p := by
      rintro e hm rfl
      exact e (h.eq_of_mem hr hi hm hp)
    split_ifs at hs with e1 e2
    · subst e1
      rw [(h.nodup_queue hr).mem_erase_iff] at hs
      exact .inl ⟨hs.2, hs.1⟩
    · subst e2
      rcases List.mem_append.mp hs with hs | hs
      · exact .inl ⟨hs, hother e1 hs⟩
      · exact .inr ⟨rfl, List.mem_singleton.mp hs⟩
    · exact .inl ⟨hs, hother e1 hs⟩
  have hpids : ∀ l, pidsOf u l = pidsOf t l := fun l => List.map_congr_left (fun r _ => hpid r)
  refine ⟨fun r hr => ?_, fun r hr => ?_, fun q hq r hr hne x hx y hy => ?_⟩
  · rw [(hu r hr).queue_eq]
    exact hu r hr
  · rw [(hu r hr).queue_eq, hpids]
    split_ifs with e1 e2
    · exact ((h.nodup i hi).sublist (List.Sublist.map _ List.erase_sublist))
    · subst e2
      rw [pidsOf, List.map_append]
      refine List.Nodup.append (h.nodup r hr) (List.nodup_singleton _) ?_
      rw [List.disjoint_comm]
      refine List.singleton_disjoint.mpr (fun hm => ?_)
      obtain ⟨s, hs, he⟩ := List.mem_map.mp hm
      exact h.disjoint r hr i hi hk s hs p hp he
    · exact h.nodup r hr
  · rw [hpid, hpid]
    rcases hold q hq x hx with ⟨hx, hxp⟩ | ⟨rfl, rfl⟩ <;> rcases hold r hr y hy with ⟨hy, hyp⟩ | ⟨e, rfl⟩
    · exact h.disjoint q hq r hr hne x hx y hy
    · exact h.pid_ne hq hi hx hp hxp
    · exact h.pid_ne hi hr hp hy (Ne.symm hyp)
    · exact absurd e.symm hne

end Apart

namespace Promoted

theorem nil (h : Apart t) (i : ℕ) : Promoted i [] t t where
  apart := h
  source := by simp
  target := by simp
  others _ _ _ _ := rfl
  wait p := by simp

theorem trans {l' : List Slot} (h : Promoted i l t u) (h' : Promoted i l' u v) : Promoted i (l ++ l') t v where
  apart := h'.apart
  source := by
    rw [h'.source, h.source, List.filter_filter]
    apply List.filter_congr
    intro p _
    simp [Bool.and_comm]
  target := by rw [h'.target, h.target, List.append_assoc]
  others r hr h1 h2 := (h'.others r hr h1 h2).trans (h.others r hr h1 h2)
  wait p := by
    rw [h'.wait, h.wait]
    by_cases hp : p ∈ l <;> by_cases hp' : p ∈ l' <;> simp [hp, hp']

theorem one (h : Apart t) (hp : p ∈ t.queue i) (hi : i < 5) (hi0 : 0 < i) : Promoted i [p] t (promote i t p) := by
  have hk : i - 1 ≠ i := by omega
  set w : Table := (t.deleteProcess p i).1.setProc p (fun r => { r with currWaitTime := 0 }) with hw
  have hwpid : ∀ r, (w.proc r).pid = (t.proc r).pid := by
    intro r
    by_cases e : r = p
    · subst e
      rw [hw, setProc_self, deleteProcess_proc]
    · rw [hw, setProc_of_ne _ _ _ _ e, deleteProcess_proc]
  have hfree : (w.proc p).pid ∉ pidsOf w (t.queue (i - 1)) := by
    rw [pidsOf, List.mem_map]
    rintro ⟨s, hs, he⟩
    rw [hwpid, hwpid] at he
    exact h.disjoint (i - 1) (by omega) i hi hk s hs p hp he
  have hprev : Holds w (i - 1) (t.queue (i - 1)) :=
    ((h.holds (i - 1) (by omega)).delete_other hk).congr rfl rfl
  have hholds : ∀ r < 5, Holds (promote i t p) r
      (if r = i then (t.queue i).erase p else if r = i - 1 then t.queue (i - 1) ++ [p] else t.queue r) := by
    intro r hr
    split_ifs with e1 e2
    · subst e1
      exact (((h.holds r hr).delete_mem (h.nodup r hr) hp).congr (u := w) rfl rfl).push_other (Ne.symm hk)
    · subst e2
      exact (hprev.push (hprev.not_any hfree)).1
    · exact (((h.holds r hr).delete_other e1).congr (u := w) rfl rfl).push_other e2
  have hpid : ∀ r, ((promote i t p).proc r).pid = (t.proc r).pid :=
    fun r => ((pushBackProcess_wakes w p (i - 1)).pid r).trans (hwpid r)
  refine ⟨h.of_queues hi hp hk hpid hholds, ?_, ?_, fun r hr h1 h2 => ?_, fun r => ?_⟩
  · rw [(hholds i hi).queue_eq, if_pos rfl, (h.nodup_queue hi).erase_eq_filter]
    apply List.filter_congr
    intro r _
    simp [bne, beq_eq_decide]
  · rw [(hholds (i - 1) (by omega)).queue_eq, if_neg hk, if_pos rfl]
  · rw [(hholds r hr).queue_eq, if_neg h1, if_neg h2]
  · by_cases e : r = p
    · subst e
      have hproc := (pushed (hprev.not_any hfree)).1
      rw [if_pos (List.mem_singleton_self r)]
      change ((w.pushBackProcess r (i - 1)).1.proc r).currWaitTime = 0
      rw [hproc, Function.update_self, hw, setProc_self]
    · rw [promote, pushBackProcess_of_ne _ _ e, setProc_of_ne _ _ _ _ e, deleteProcess_proc, if_neg (by simpa using e)]

end Promoted

theorem ageQueue_of_lt {j : ℕ} (h : t.qLatestIdx i < j) : ageQueue i fuel j t = t := by
  cases fuel with
  | zero => rfl
  | succ fuel => exact if_neg (by omega)

theorem ageQueue_succ {j : ℕ} (hj : (j : ℤ) ≤ t.qLatestIdx i) (hp : t.queuePtr i j = some p) :
    ageQueue i (fuel + 1) j t =
      if Starved t i p then ageQueue i fuel (j + 1) (promote i t p) else ageQueue i fuel (j + 1) t := by
  rw [ageQueue, if_pos hj, hp]
  rfl

theorem filter_of_not_mem (h : (done ++ p :: rest).Nodup) :
    (done ++ p :: rest).filter (fun r => r ∉ [p]) = done ++ rest := by
  rw [List.nodup_append, List.nodup_cons] at h
  obtain ⟨-, ⟨hrest, -⟩, hdone⟩ := h
  rw [List.filter_append, List.filter_cons_of_neg (by simp), List.filter_eq_self.mpr, List.filter_eq_self.mpr]
  · intro r hr
    simpa using fun e : r = p => hrest (e ▸ hr)
  · intro r hr
    simpa using hdone r hr p (by simp)

section Reached

variable {S : Slot → Prop} [DecidablePred S]

def reached (S : Slot → Prop) [DecidablePred S] : List Slot → List Slot
  | [] => []
  | [p] => if S p then [p] else []
  | p :: r :: rest => if S p then p :: reached S rest else reached S (r :: rest)

theorem reached_cons_pos (h : S p) : reached S (p :: rest) = p :: reached S rest.tail := by
  cases rest with
  | nil => simp [reached, h]
  | cons r rest => simp [reached, h]

theorem reached_cons_neg (h : ¬ S p) : reached S (p :: rest) = reached S rest := by
  cases rest with
  | nil => simp [reached, h]
  | cons r rest => simp [reached, h]

theorem mem_of_mem_reached (h : p ∈ reached S l) : p ∈ l ∧ S p := by
  induction l using reached.induct S with
  | case1 => cases h
  | case2 r hr => grind [reached]
  | case3 r hr => grind [reached]
  | case4 r s rest hr ih => grind [reached]
  | case5 r s rest hr ih => grind [reached]

theorem reached_eq_filter (h : l.IsChain (fun p r => ¬ (S p ∧ S r))) : reached S l = l.filter (fun p => S p) := by
  induction l using reached.induct S with
  | case1 => rfl
  | case2 r hr => simp [reached, hr]
  | case3 r hr => simp [reached, hr]
  | case4 r s rest hr ih =>
    have hs : ¬ S s := fun hs => (List.isChain_cons_cons.mp h).1 ⟨hr, hs⟩
    rw [reached_cons_pos hr, List.tail_cons, ih (List.isChain_cons_cons.mp h).2.of_cons]
    simp [hr, hs]
  | case5 r s rest hr ih =>
    rw [reached_cons_neg hr, ih h.of_cons]
    simp [hr]

theorem isChain_of_reached (hd : l.Nodup) (h : ∀ p ∈ l, S p → p ∈ reached S l) :
    l.IsChain (fun p r => ¬ (S p ∧ S r)) := by
  induction l using reached.induct S with
  | case1 => exact .nil
  | case2 r hr => exact .singleton r
  | case3 r hr => exact .singleton r
  | case4 r s rest hr ih =>
    rw [reached_cons_pos hr, List.tail_cons] at h
    obtain ⟨hrn, hsn, hrest⟩ : r ∉ s :: rest ∧ s ∉ rest ∧ rest.Nodup := by simpa using hd
    have hs : ¬ S s := by
      intro hs
      rcases List.mem_cons.mp (h s (by simp) hs) with rfl | hm
      · exact hrn List.mem_cons_self
      · exact hsn (mem_of_mem_reached hm).1
    have hchain : rest.IsChain (fun p r => ¬ (S p ∧ S r)) := by
      refine ih hrest (fun p hp hS => ?_)
      rcases List.mem_cons.mp (h p (by simp [hp]) hS) with rfl | hm
      · exact absurd (List.mem_cons_of_mem _ hp) hrn
      · exact hm
    refine List.isChain_cons_cons.mpr ⟨fun hx => hs hx.2, ?_⟩
    cases rest with
    | nil => exact .singleton s
    | cons x rest => exact List.isChain_cons_cons.mpr ⟨fun hx => hs hx.1, hchain⟩
  | case5 r s rest hr ih =>
    rw [reached_cons_neg hr] at h
    have hchain := ih hd.of_cons (fun p hp hS => h p (List.mem_cons_of_mem _ hp) hS)
    exact List.isChain_cons_cons.mpr ⟨fun hx => hr hx.1, hchain⟩

theorem ageQueue_promoted (h : Apart t) (hi : i < 5) (hi0 : 0 < i) (hq : t.queue i = done ++ rest)
    (hS : ∀ r ∈ rest, Starved t i r ↔ S r) (hf : rest.length ≤ fuel) :
    Promoted i (reached S rest) t (ageQueue i fuel done.length t) := by
  induction fuel generalizing t done rest with
  | zero =>
    obtain rfl := List.length_eq_zero_iff.mp (Nat.le_zero.mp hf)
    exact .nil h i
  | succ fuel ih =>
    have hlen := h.length_queue hi
    cases rest with
    | nil =>
      rw [hq, List.append_nil] at hlen
      rw [ageQueue_of_lt (by omega)]
      exact .nil h i
    | cons p rest =>
      have hle : (done.length : ℤ) ≤ t.qLatestIdx i := by
        rw [hq, List.length_append, List.length_cons] at hlen
        omega
      rw [ageQueue_succ hle (h.queuePtr_eq hi hq)]
      by_cases hw : S p
      · rw [if_pos ((hS p (by simp)).mpr hw), reached_cons_pos hw]
        have hnodup := h.nodup_queue hi
        have hone := Promoted.one h (p := p) (by rw [hq]; simp) hi hi0
        have hnew : (promote i t p).queue i = done ++ rest := by
          rw [hone.source, hq]
          rw [hq] at hnodup
          exact filter_of_not_mem hnodup
        refine hone.trans ?_
        cases rest with
        | nil =>
          have hlen' := hone.apart.length_queue hi
          rw [hnew, List.append_nil] at hlen'
          rw [ageQueue_of_lt (by omega)]
          exact .nil hone.apart i
        | cons r rest =>
          -- the loop goes on behind `r`, which now stands where `p` stood
          have hr : (promote i t p).queue i = done ++ [r] ++ rest := by rw [hnew]; simp
          have hstep := ih hone.apart hr (fun x hx => ?_) (by simp at hf; omega)
          · rwa [List.length_append] at hstep
          · have hxp : x ≠ p := by
              rintro rfl
              rw [hq, List.nodup_append, List.nodup_cons] at hnodup
              exact hnodup.2.1.1 (by simp [hx])
            rw [← hS x (by simp [hx]), Starved, Starved, hone.wait, if_neg (by simpa using hxp)]
      · rw [if_neg (mt (hS p (by simp)).mp hw), reached_cons_neg hw]
        have hstep := ih h (show t.queue i = done ++ [p] ++ rest by rw [hq]; simp)
          (fun x hx => hS x (by simp [hx])) (by simpa using hf)
        rwa [List.length_append] at hstep

end Reached

def moved (t : Table) (i : ℕ) : List Slot := reached (Starved t i) (t.queue i)

structure Aged (t : Table) (k : ℕ) (u : Table) : Prop where
  apart : Apart u
  queue : ∀ i < 5, u.queue i =
    (t.queue i).filter (fun p => i = 0 ∨ k < i ∨ p ∉ moved t i) ++ if i < k then moved t (i + 1) else []
  reset : ∀ i, 0 < i → i ≤ k → ∀ p ∈ moved t i, (u.proc p).currWaitTime = 0
  wait : ∀ p, (∀ i, 0 < i → i ≤ k → p ∉ moved t i) → (u.proc p).currWaitTime = (t.proc p).currWaitTime

namespace Aged

theorem zero (h : Apart t) : Aged t 0 t where
  apart := h
  queue i _ := by
    rw [List.filter_eq_self.mpr, if_neg (Nat.not_lt_zero i), List.append_nil]
    intro p _
    simp [Nat.eq_zero_or_pos i, ← or_assoc]
  reset i h0 hk := absurd h0 (by omega)
  wait _ _ := rfl

theorem next {k : ℕ} (h0 : Apart t) (h : Aged t k u) (hk : k + 1 < 5) :
    Aged t (k + 1) (ageQueue (k + 1) (u.qLatestIdx (k + 1) + 1).toNat 0 u) := by
  have hq : u.queue (k + 1) = t.queue (k + 1) := by
    rw [h.queue _ hk, if_neg (by omega), List.append_nil, List.filter_eq_self.mpr]
    intro p _
    simp
  have hapart : ∀ i, 0 < i → i ≤ k → ∀ p ∈ t.queue (k + 1), p ∉ moved t i := by
    intro i _ hi p hp hp'
    have := h0.eq_of_mem hk (by omega) hp (mem_of_mem_reached hp').1
    omega
  have hS : ∀ r ∈ u.queue (k + 1), Starved u (k + 1) r ↔ Starved t (k + 1) r := by
    intro r hr
    rw [hq] at hr
    rw [Starved, Starved, h.wait r (fun i h1 h2 => hapart i h1 h2 r hr)]
  have hfuel : (u.queue (k + 1)).length ≤ (u.qLatestIdx (k + 1) + 1).toNat := by
    have := h.apart.length_queue hk
    omega
  have hp := ageQueue_promoted h.apart hk (Nat.succ_pos k) (List.nil_append _).symm hS hfuel
  have hl : reached (Starved t (k + 1)) (u.queue (k + 1)) = moved t (k + 1) := by rw [hq]; rfl
  rw [hl, List.length_nil] at hp
  refine ⟨hp.apart, fun i hi => ?_, fun i hi0 hi p hpi => ?_, fun p hpi => ?_⟩
  · by_cases e : i = k + 1
    · subst e
      rw [hp.source, hq, if_neg (by omega), List.append_nil]
      apply List.filter_congr
      intro p _
      simp
    · by_cases e' : i = k
      · subst e'
        have ht := hp.target
        rw [Nat.add_sub_cancel, h.queue i hi, if_neg (by omega), List.append_nil] at ht
        have hlt : i < i ↔ i + 1 < i := by omega
        rw [ht, if_pos (by omega)]
        simp only [hlt]
      · rw [hp.others i hi e (by omega), h.queue i hi]
        have h1 : k < i ↔ k + 1 < i := by omega
        have h2 : i < k ↔ i < k + 1 := by omega
        simp only [h1, h2]
  · rw [hp.wait]
    by_cases hpk : p ∈ moved t (k + 1)
    · exact if_pos hpk
    · have hik : i ≤ k := by
        rcases Nat.lt_or_eq_of_le hi with hlt | rfl
        · omega
        · exact absurd hpi hpk
      rw [if_neg hpk, h.reset i hi0 hik p hpi]
  · rw [hp.wait, if_neg (hpi _ (Nat.succ_pos k) (le_refl _))]
    exact h.wait p (fun i h1 h2 => hpi i h1 (by omega))

end Aged

theorem ageing_aged (h : Apart t) : Aged t 4 (ageing t) := by
  have h1 := (Aged.zero h).next h (by omega)
  have h2 := h1.next h (by omega)
  have h3 := h2.next h (by omega)
  exact h3.next h (by omega)

theorem patienceThreshold_nonneg (i : ℕ) : 0 ≤ patienceThreshold i := by
  unfold patienceThreshold
  split <;> decide

structure StarvedMoveUp (t u : Table) : Prop where
  queue : ∀ i < 5, u.queue i =
    (t.queue i).filter (fun p => i = 0 ∨ ¬ Starved t i p) ++ if i < 4 then starved t (i + 1) else []
  reset : ∀ i, 0 < i → i < 5 → ∀ p ∈ starved t i, (u.proc p).currWaitTime = 0
  wait : ∀ p, (∀ i, 0 < i → i < 5 → p ∉ starved t i) → (u.proc p).currWaitTime = (t.proc p).currWaitTime
  patient : ∀ i, 0 < i → i < 5 → ∀ p ∈ u.queue i, ¬ Starved u i p

theorem starvedMoveUp_of_spaced (h : Apart t) (hs : ∀ i, 0 < i → i < 5 → Spaced t i) :
    StarvedMoveUp t (ageing t) := by
  have ha := ageing_aged h
  have hmoved : ∀ i, 0 < i → i < 5 → moved t i = starved t i := fun i h0 hi => reached_eq_filter (hs i h0 hi)
  have hqueue : ∀ i < 5, (ageing t).queue i =
      (t.queue i).filter (fun p => i = 0 ∨ ¬ Starved t i p) ++ if i < 4 then starved t (i + 1) else [] := by
    intro i hi
    have h4 : ¬ 4 < i := by omega
    rw [ha.queue i hi]
    congr 1
    · apply List.filter_congr
      intro p hp
      by_cases h0 : i = 0
      · simp [h0]
      · rw [hmoved i (by omega) hi]
        simp [h0, h4, starved, hp]
    · split_ifs with hlt
      · exact hmoved (i + 1) (by omega) (by omega)
      · rfl
  have hreset : ∀ i, 0 < i → i < 5 → ∀ p ∈ starved t i, ((ageing t).proc p).currWaitTime = 0 := by
    intro i h0 hi p hp
    exact ha.reset i h0 (by omega) p (by rwa [hmoved i h0 hi])
  have hwait : ∀ p, (∀ i, 0 < i → i < 5 → p ∉ starved t i) →
      ((ageing t).proc p).currWaitTime = (t.proc p).currWaitTime := by
    intro p hp
    refine ha.wait p (fun i h0 hi => ?_)
    rw [hmoved i h0 (by omega)]
    exact hp i h0 (by omega)
  refine ⟨hqueue, hreset, hwait, fun i h0 hi p hp => ?_⟩
  rw [hqueue i hi, List.mem_append] at hp
  rw [Starved, not_lt]
  rcases hp with hp | hp
  · -- left in its queue, with the wait time it had
    rw [List.mem_filter] at hp
    have hns : ¬ Starved t i p := by simpa [h0.ne'] using hp.2
    rw [hwait p ?_]
    · exact not_lt.mp hns
    · intro r _ hr hpr
      obtain rfl := h.eq_of_mem hi hr hp.1 (List.mem_filter.mp hpr).1
      exact hns (by simpa using (List.mem_filter.mp hpr).2)
  · by_cases h4 : i < 4
    · rw [if_pos h4] at hp
      rw [hreset (i + 1) (by omega) (by omega) p hp]
      exact patienceThreshold_nonneg i
    · rw [if_neg h4] at hp
      exact absurd hp List.not_mem_nil

theorem starved_promoted (t : Table) (h : Apart t) :
    StarvedMoveUp t (ageing t) ↔ ∀ i, 0 < i → i < 5 → Spaced t i := by
  refine ⟨fun hu i h0 hi => isChain_of_reached (h.nodup_queue hi) (fun p hp hS => ?_), starvedMoveUp_of_spaced h⟩
  by_contra hm
  -- passed over, so that it has waited as long as before
  have hkept : ((ageing t).proc p).currWaitTime = (t.proc p).currWaitTime := by
    refine (ageing_aged h).wait p (fun r _ hr hpr => ?_)
    obtain rfl := h.eq_of_mem hi (by omega) hp (mem_of_mem_reached hpr).1
    exact hm hpr
  have hzero := hu.reset i h0 hi p (List.mem_filter.mpr ⟨hp, by simpa using hS⟩)
  rw [hkept] at hzero
  have hnonneg := patienceThreshold_nonneg i
  rw [Starved] at hS
  omega

def twoWaiting (p r : Slot) (a b : ℤ) : Table where
  proc x :=
    if x = p then { state := .runnable, pid := 1, currQueueId := 1, currWaitTime := a }
    else if x = r then { state := .runnable, pid := 2, currQueueId := 1, currWaitTime := b }
    else {}
  queuePtr q i := if q = 1 then [p, r][i]? else none
  qLatestIdx q := if q = 1 then 1 else -1

theorem twoWaiting_apart {p r : Slot} (hpr : p ≠ r) (a b : ℤ) : Apart (twoWaiting p r a b) := by
  have hholds : ∀ q, Holds (twoWaiting p r a b) q (if q = 1 then [p, r] else []) := by
    intro q
    constructor
    · by_cases e : q = 1 <;> simp [twoWaiting, e]
    · intro i hi
      by_cases e : q = 1 <;> simp [twoWaiting, e] at hi ⊢
  have hqueue : ∀ q, (twoWaiting p r a b).queue q = if q = 1 then [p, r] else [] := fun q => (hholds q).queue_eq
  refine ⟨fun q _ => by rw [hqueue]; exact hholds q, fun q _ => ?_, fun q _ s _ hne x hx y hy => ?_⟩
  · rw [hqueue]
    by_cases e : q = 1 <;> simp [pidsOf, twoWaiting, e, hpr.symm]
  · rw [hqueue] at hx hy
    split_ifs at hx hy with h1 h2
    · exact absurd (h1.trans h2.symm) hne
    all_goals simp_all

theorem second_starved_left_behind :
    Apart (twoWaiting 0 1 21 21) ∧ starved (twoWaiting 0 1 21 21) 1 = [0, 1] ∧
    (ageing (twoWaiting 0 1 21 21)).queue 0 = [0] ∧ (ageing (twoWaiting 0 1 21 21)).queue 1 = [1] ∧
    Starved (ageing (twoWaiting 0 1 21 21)) 1 1 := by
  refine ⟨twoWaiting_apart (by decide) 21 21, ?_, ?_, ?_, ?_⟩ <;> decide

theorem starved_promoted_two :
    Apart (twoWaiting 0 1 21 20) ∧ (∀ i, 0 < i → i < 5 → Spaced (twoWaiting 0 1 21 20) i) ∧
    (ageing (twoWaiting 0 1 21 20)).queue 0 = [0] ∧ ((ageing (twoWaiting 0 1 21 20)).proc 0).currWaitTime = 0 := by
  have hw : Apart (twoWaiting 0 1 21 20) := twoWaiting_apart (by decide) 21 20
  have hs : ∀ i, 0 < i → i < 5 → Spaced (twoWaiting 0 1 21 20) i := by
    intro i _ _
    by_cases e : i = 1
    · subst e
      exact List.isChain_cons_cons.mpr ⟨by decide, .singleton _⟩
    · have hq : (twoWaiting 0 1 21 20).queue i = [] := by simp [Table.queue, twoWaiting, e]
      rw [Spaced, hq]
      exact .nil
  have h := (starved_promoted _ hw).mpr hs
  exact ⟨hw, hs, (h.queue 0 (by omega)).trans (by decide), h.reset 1 (by omega) (by omega) 0 (by decide)⟩

end EnhancedXv6.Scheduler
