import EnhancedXv6.LogSafe

namespace EnhancedXv6.LogDisk

open Transition Machine RedoLog

structure Write where
  op : ℕ
  blockno : ℕ
  data : Block

structure Past (P : Type*) where
  op : P → ℕ := fun _ => 0
  begun : ℕ := 0
  txnOf : ℕ → ℕ := fun _ => 0
  ended : ℕ → Bool := fun _ => false
  txn : ℕ := 0
  writes : List Write := []
  committed : ℕ → Bool := fun _ => false
  returned : ℕ → Bool := fun _ => false

namespace Past

variable {P : Type*} [DecidableEq P]

def commitTxn (h : Past P) : Past P := { h with committed := Function.update h.committed h.txn true }

def finishTxn (h : Past P) : Past P :=
  { h.commitTxn with returned := Function.update h.returned h.txn true, txn := h.txn + 1 }

def record (h : Past P) (s : State P) (l : Label P) (t : State P) : Past P :=
  match l with
  | .beginOp p => { h with
      op := Function.update h.op p h.begun
      txnOf := Function.update h.txnOf h.begun h.txn
      begun := h.begun + 1 }
  | .logWrite p => match (s.proc p).passed with
    | some i => { h with writes := h.writes ++ [⟨h.op p, (s.cache.buf i).blockno, (s.cache.buf i).data⟩] }
    | none => h
  | .endOp p => { h with ended := Function.update h.ended (h.op p) true }
  | .commit => match s.phase, t.phase with
    | .writeLog _, .install _ _ => h.commitTxn
    | .finish, _ => h.finishTxn
    | _, _ => h
  | .crash => { h with txn := h.txn + 1 }
  | _ => h

def contents (h : Past P) (disk : ℕ → Block) (keep : ℕ → Bool) : ℕ → Block :=
  replay ((h.writes.filter (fun w => keep (h.txnOf w.op))).map (fun w => (w.blockno, w.data))) disk

def committedContents (h : Past P) (disk : ℕ → Block) : ℕ → Block := h.contents disk h.committed

def workingContents (h : Past P) (disk : ℕ → Block) : ℕ → Block :=
  h.contents disk (fun t => h.committed t || t = h.txn)

variable {h : Past P} {disk : ℕ → Block}

omit [DecidableEq P] in
theorem contents_congr {h' : Past P} {keep keep' : ℕ → Bool} (hw : h'.writes = h.writes)
    (hk : ∀ w ∈ h.writes, keep' (h'.txnOf w.op) = keep (h.txnOf w.op)) :
    h'.contents disk keep' = h.contents disk keep := by
  unfold contents
  rw [hw, List.filter_congr hk]

omit [DecidableEq P] in
theorem contents_write (w : Write) (keep : ℕ → Bool) :
    ({ h with writes := h.writes ++ [w] } : Past P).contents disk keep =
      if keep (h.txnOf w.op) then Function.update (h.contents disk keep) w.blockno w.data
      else h.contents disk keep := by
  unfold contents
  split_ifs with hk
  · simp [hk, replay_concat]
  · simp [hk]

end Past

def pastMachine (P : Type*) [DecidableEq P] (L : Layout) (disk : ℕ → Block) : Machine (State P × Past P) (Label P) :=
  (machine P L disk).history {} Past.record

def Phase.isCommitted : Phase → Bool
  | install false _ => true
  | finish => true
  | _ => false

structure Recorded {P : Type*} (s : State P) (h : Past P) : Prop where
  op : ∀ p, (s.proc p).inOp → h.op p < h.begun ∧ h.txnOf (h.op p) = h.txn ∧ h.ended (h.op p) = false
  inj : ∀ p q, (s.proc p).inOp → (s.proc q).inOp → h.op p = h.op q → p = q
  ended : ∀ o, h.ended o → o < h.begun
  writes : ∀ w ∈ h.writes, w.op < h.begun
  txnOf : ∀ o < h.begun, h.txnOf o ≤ h.txn
  current : ∀ o < h.begun, h.txnOf o = h.txn → h.ended o ∨ ∃ p, (s.proc p).inOp ∧ h.op p = o
  whole : ∀ o < h.begun, h.committed (h.txnOf o) → h.ended o
  returned : ∀ t, h.returned t → h.committed t
  fresh : ∀ t, h.committed t → t < h.txn ∨ t = h.txn ∧ s.phase.isCommitted

namespace Recorded

variable {P : Type*} {s t : State P} {h : Past P}

theorem congr (hr : Recorded s h) (hop : ∀ p, (t.proc p).inOp = (s.proc p).inOp)
    (hphase : s.phase.isCommitted → t.phase.isCommitted) : Recorded t h where
  op p hp := hr.op p ((hop p).symm.trans hp)
  inj p q hp hq := hr.inj p q ((hop p).symm.trans hp) ((hop q).symm.trans hq)
  ended := hr.ended
  writes := hr.writes
  txnOf := hr.txnOf
  current o ho ht := (hr.current o ho ht).imp_right fun ⟨p, hp, hpo⟩ => ⟨p, (hop p).trans hp, hpo⟩
  whole := hr.whole
  returned := hr.returned
  fresh t ht := (hr.fresh t ht).imp_right fun ⟨h1, h2⟩ => ⟨h1, hphase h2⟩

theorem not_committed (hr : Recorded s h) (hphase : s.phase.isCommitted = false) : h.committed h.txn = false := by
  by_contra hc
  rcases hr.fresh h.txn (by simpa using hc) with h1 | ⟨-, h1⟩
  · omega
  · simp [hphase] at h1

theorem commitTxn (hr : Recorded s h) (hnone : ∀ p, (s.proc p).inOp = false)
    (hop : ∀ p, (t.proc p).inOp = (s.proc p).inOp) (hphase : t.phase.isCommitted) : Recorded t h.commitTxn where
  op p hp := hr.op p ((hop p).symm.trans hp)
  inj p q hp hq := hr.inj p q ((hop p).symm.trans hp) ((hop q).symm.trans hq)
  ended := hr.ended
  writes := hr.writes
  txnOf := hr.txnOf
  current o ho ht := (hr.current o ho ht).imp_right fun ⟨p, hp, hpo⟩ => ⟨p, (hop p).trans hp, hpo⟩
  whole o ho hc := by
    by_cases ht : h.txnOf o = h.txn
    · rcases hr.current o ho ht with he | ⟨p, hp, -⟩
      · exact he
      · simp [hnone p] at hp
    · exact hr.whole o ho (by simpa [Past.commitTxn, ht] using hc)
  returned u hu := by
    by_cases ht : u = h.txn
    · simp [Past.commitTxn, ht]
    · simpa [Past.commitTxn, ht] using hr.returned u hu
  fresh u hu := by
    by_cases ht : u = h.txn
    · exact .inr ⟨ht, hphase⟩
    · refine (hr.fresh u (by simpa [Past.commitTxn, ht] using hu)).imp_right fun h1 => absurd h1.1 ht

theorem nextTxn (hr : Recorded s h) (hnone : ∀ p, (t.proc p).inOp = false) :
    Recorded t { h with txn := h.txn + 1 } where
  op p hp := by simp [hnone p] at hp
  inj p q hp := by simp [hnone p] at hp
  ended := hr.ended
  writes := hr.writes
  txnOf o ho := (hr.txnOf o ho).trans (Nat.le_succ _)
  current o ho ht := by
    have := hr.txnOf o ho
    dsimp only at ht
    omega
  whole := hr.whole
  returned := hr.returned
  fresh u hu := by
    left
    rcases hr.fresh u hu with h1 | ⟨h1, -⟩
    · exact h1.trans (Nat.lt_succ_self _)
    · exact h1 ▸ Nat.lt_succ_self _

theorem finishTxn (hr : Recorded s h) (hphase : s.phase.isCommitted) (hnone : ∀ p, (s.proc p).inOp = false)
    (hop : ∀ p, (t.proc p).inOp = (s.proc p).inOp) : Recorded t h.finishTxn := by
  have hc := hr.commitTxn (t := s) hnone (fun _ => rfl) hphase
  have hn := hc.nextTxn (t := t) (fun p => by rw [hop, hnone])
  refine { hn with returned := fun u hu => ?_ }
  by_cases ht : u = h.txn
  · simp [Past.finishTxn, Past.commitTxn, ht]
  · simpa [Past.finishTxn, Past.commitTxn, ht] using hr.returned u (by simpa [Past.finishTxn, ht] using hu)

theorem logWrite (hr : Recorded s h) {p : P} (hp : (s.proc p).inOp) (w : Write) (hw : w.op = h.op p)
    (hop : ∀ q, (t.proc q).inOp = (s.proc q).inOp) (hphase : t.phase = s.phase) :
    Recorded t { h with writes := h.writes ++ [w] } := by
  have ht := hr.congr hop (fun hc => by rwa [hphase])
  refine { ht with writes := fun v hv => ?_ }
  rcases List.mem_append.1 hv with hv | hv
  · exact hr.writes v hv
  · obtain rfl : v = w := by simpa using hv
    exact hw ▸ (hr.op p hp).1

variable [DecidableEq P]

theorem beginOp (hr : Recorded s h) {p : P} (hp : ∀ q, q ≠ p → (t.proc q).inOp = (s.proc q).inOp)
    (hout : (s.proc p).inOp = false) (hin : (t.proc p).inOp) (hphase : s.phase = .idle) : Recorded t (h.record s (.beginOp p) t) := by
  have htxn : ∀ o, o ≠ h.begun → Function.update h.txnOf h.begun h.txn o = h.txnOf o := fun o ho =>
    Function.update_of_ne ho _ _
  have hcases : ∀ q, (t.proc q).inOp → (q = p ∧ Function.update h.op p h.begun q = h.begun) ∨
      q ≠ p ∧ (s.proc q).inOp ∧ Function.update h.op p h.begun q = h.op q ∧ h.op q < h.begun := by
    intro q hq
    by_cases hqp : q = p
    · exact .inl ⟨hqp, by simp [hqp]⟩
    · rw [hp q hqp] at hq
      exact .inr ⟨hqp, hq, by simp [hqp], (hr.op q hq).1⟩
  have hnot := hr.not_committed (by rw [hphase]; rfl)
  constructor <;> dsimp only [Past.record]
  case op =>
    intro q hq
    rcases hcases q hq with ⟨rfl, h1⟩ | ⟨hqp, hop, h1, h2⟩
    · rw [h1, Function.update_self]
      refine ⟨Nat.lt_succ_self _, rfl, ?_⟩
      by_contra he
      have := hr.ended h.begun (by simpa using he)
      omega
    · obtain ⟨h3, h4, h5⟩ := hr.op q hop
      rw [h1, htxn _ (by omega)]
      exact ⟨by omega, h4, h5⟩
  case inj =>
    intro q r hq hr'
    rcases hcases q hq with ⟨rfl, h1⟩ | ⟨hqp, hop, h1, h2⟩ <;>
      rcases hcases r hr' with ⟨rfl, h3⟩ | ⟨hrp, hop', h3, h4⟩
    · exact fun _ => rfl
    · rw [h1, h3]
      intro he
      omega
    · rw [h1, h3]
      intro he
      omega
    · rw [h1, h3]
      exact hr.inj q r hop hop'
  case ended => exact fun o ho => (hr.ended o ho).trans (Nat.lt_succ_self _)
  case writes => exact fun w hw => (hr.writes w hw).trans (Nat.lt_succ_self _)
  case txnOf =>
    intro o ho
    by_cases hob : o = h.begun
    · simp [hob]
    · rw [htxn o hob]
      exact hr.txnOf o (by omega)
  case current =>
    intro o ho ht
    by_cases hob : o = h.begun
    · exact .inr ⟨p, hin, by simp [hob]⟩
    · rw [htxn o hob] at ht
      rcases hr.current o (by omega) ht with he | ⟨q, hq, hqo⟩
      · exact .inl he
      · have hqp : q ≠ p := by
          rintro rfl
          simp [hout] at hq
        exact .inr ⟨q, by rw [hp q hqp, hq], by simp [hqp, hqo]⟩
  case whole =>
    intro o ho hc
    by_cases hob : o = h.begun
    · simp [hob, hnot] at hc
    · rw [htxn o hob] at hc
      exact hr.whole o (by omega) hc
  case returned => exact hr.returned
  case fresh =>
    intro u hu
    refine (hr.fresh u hu).imp_right fun ⟨h1, h2⟩ => ?_
    simp [hphase, Phase.isCommitted] at h2

theorem endOp (hr : Recorded s h) {p : P} (hp : (s.proc p).inOp)
    (hop : ∀ q, q ≠ p → (t.proc q).inOp = (s.proc q).inOp) (hout : (t.proc p).inOp = false)
    (hphase : s.phase = .idle) : Recorded t (h.record s (.endOp p) t) := by
  have hne : ∀ q, (t.proc q).inOp → q ≠ p ∧ (s.proc q).inOp := by
    intro q hq
    have hqp : q ≠ p := by
      rintro rfl
      simp [hout] at hq
    exact ⟨hqp, by rwa [hop q hqp] at hq⟩
  have hended : ∀ o, h.ended o → Function.update h.ended (h.op p) true o := by
    intro o ho
    by_cases hop : o = h.op p
    · simp [hop]
    · simpa [hop] using ho
  constructor <;> dsimp only [Past.record]
  case op =>
    intro q hq
    obtain ⟨hqp, hq⟩ := hne q hq
    obtain ⟨h1, h2, h3⟩ := hr.op q hq
    refine ⟨h1, h2, ?_⟩
    rw [Function.update_of_ne (fun he => hqp (hr.inj q p hq hp he)), h3]
  case inj => exact fun q r hq hr' => hr.inj q r (hne q hq).2 (hne r hr').2
  case ended =>
    intro o ho
    by_cases hop : o = h.op p
    · exact hop ▸ (hr.op p hp).1
    · exact hr.ended o (by simpa [hop] using ho)
  case writes => exact hr.writes
  case txnOf => exact hr.txnOf
  case current =>
    intro o ho ht
    rcases hr.current o ho ht with he | ⟨q, hq, rfl⟩
    · exact .inl (hended o he)
    · by_cases hqp : q = p
      · exact .inl (by simp [hqp])
      · exact .inr ⟨q, by rw [hop q hqp, hq], rfl⟩
  case whole => exact fun o ho hc => hended o (hr.whole o ho hc)
  case returned => exact hr.returned
  case fresh =>
    intro u hu
    refine (hr.fresh u hu).imp_right fun ⟨h1, h2⟩ => ?_
    simp [hphase, Phase.isCommitted] at h2

end Recorded

namespace Past

variable {P : Type*} {s : State P} {h : Past P} (disk : ℕ → Block)

theorem committedContents_commitTxn : h.commitTxn.committedContents disk = h.workingContents disk := by
  refine contents_congr rfl (fun w _ => ?_)
  by_cases ht : h.txnOf w.op = h.txn
  · simp [commitTxn, ht]
  · simp [commitTxn, ht]

theorem workingContents_commitTxn : h.commitTxn.workingContents disk = h.workingContents disk := by
  refine contents_congr rfl (fun w _ => ?_)
  by_cases ht : h.txnOf w.op = h.txn
  · simp [commitTxn, ht]
  · simp [commitTxn, ht]

theorem workingContents_nextTxn (hr : Recorded s h) :
    ({ h with txn := h.txn + 1 } : Past P).workingContents disk = h.committedContents disk := by
  refine contents_congr rfl (fun w hw => ?_)
  have hle := hr.txnOf w.op (hr.writes w hw)
  have hne : h.txnOf w.op ≠ h.txn + 1 := by omega
  simp [hne]

theorem committedContents_finishTxn : h.finishTxn.committedContents disk = h.workingContents disk :=
  committedContents_commitTxn (h := h) disk

theorem workingContents_finishTxn (hr : Recorded s h) : h.finishTxn.workingContents disk = h.workingContents disk := by
  refine contents_congr rfl (fun w hw => ?_)
  have hle := hr.txnOf w.op (hr.writes w hw)
  have hne : h.txnOf w.op ≠ h.txn + 1 := by omega
  by_cases ht : h.txnOf w.op = h.txn
  · simp [finishTxn, commitTxn, ht]
  · simp [finishTxn, commitTxn, ht, hne]

theorem contents_beginOp [DecidableEq P] (hr : Recorded s h) (p : P) (t : State P) (keep : ℕ → Bool) :
    (h.record s (.beginOp p) t).contents disk keep = h.contents disk keep := by
  refine contents_congr rfl (fun w hw => ?_)
  have hlt := hr.writes w hw
  have hne : w.op ≠ h.begun := by omega
  simp [record, hne]

theorem contents_logWrite (hr : Recorded s h) {p : P} (hp : (s.proc p).inOp) (hphase : s.phase.isCommitted = false)
    (w : Write) (hw : w.op = h.op p) :
    ({ h with writes := h.writes ++ [w] } : Past P).committedContents disk = h.committedContents disk ∧
      ({ h with writes := h.writes ++ [w] } : Past P).workingContents disk =
        Function.update (h.workingContents disk) w.blockno w.data := by
  have htxn : h.txnOf w.op = h.txn := hw ▸ (hr.op p hp).2.1
  constructor
  · rw [committedContents, contents_write, htxn, if_neg (by simp [hr.not_committed hphase])]
    rfl
  · rw [workingContents, contents_write, htxn, if_pos (by simp)]
    rfl

end Past

end EnhancedXv6.LogDisk
