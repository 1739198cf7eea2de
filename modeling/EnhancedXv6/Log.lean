import Mathlib.Data.List.Basic

namespace EnhancedXv6

def MAXOPBLOCKS : ℕ := 10

def LOGSIZE : ℕ := MAXOPBLOCKS * 3

def FSSIZE : ℕ := 1000

structure Log where
  start : ℕ
  size : ℕ
  outstanding : ℕ := 0
  committing : Bool := false
  lh : List ℕ := []
  deriving DecidableEq, Repr

namespace Log

def mkfs : Log := { start := 2, size := LOGSIZE }

/-- One turn of the loop of `begin_op`; `none` goes to sleep. -/
def beginOp (l : Log) : Option Log :=
  if l.committing then none
  else if LOGSIZE < l.lh.length + (l.outstanding + 1) * MAXOPBLOCKS then none
  else some { l with outstanding := l.outstanding + 1 }

def logCheck (l : Log) : Except String Unit :=
  if LOGSIZE ≤ l.lh.length ∨ l.size - 1 ≤ l.lh.length then .error "too big a transaction"
  else if l.outstanding < 1 then .error "log_write outside of trans"
  else .ok ()

def logWrite (l : Log) (blockno : ℕ) : Log :=
  { l with lh := if blockno ∈ l.lh then l.lh else l.lh ++ [blockno] }

def endOp (l : Log) : Except String Log :=
  if l.committing then .error "log.committing"
  else .ok { l with outstanding := l.outstanding - 1, committing := l.outstanding - 1 = 0 }

theorem beginOp_eq_some {l l' : Log} (h : l.beginOp = some l') :
    l.committing = false ∧ l.lh.length + (l.outstanding + 1) * MAXOPBLOCKS ≤ LOGSIZE ∧
      l' = { l with outstanding := l.outstanding + 1 } := by
  unfold beginOp at h
  split_ifs at h with hc hn
  exact ⟨by simpa using hc, by omega, by simpa using h.symm⟩

theorem endOp_of_not_committing {l : Log} (h : l.committing = false) :
    l.endOp = .ok { l with outstanding := l.outstanding - 1, committing := l.outstanding - 1 = 0 } := by
  simp [endOp, h]

theorem logCheck_eq_ok {l : Log} :
    l.logCheck = .ok () ↔ l.lh.length < LOGSIZE ∧ l.lh.length < l.size - 1 ∧ 1 ≤ l.outstanding := by
  unfold logCheck
  split_ifs with h1 h2
  · simp; omega
  · simp; omega
  · simp; omega

theorem mem_logWrite {l : Log} {b c : ℕ} : c ∈ (l.logWrite b).lh ↔ c ∈ l.lh ∨ c = b := by
  unfold logWrite
  split_ifs with h
  · exact ⟨.inl, fun hc => hc.elim id (fun hb => hb ▸ h)⟩
  · simp

end Log

end EnhancedXv6
