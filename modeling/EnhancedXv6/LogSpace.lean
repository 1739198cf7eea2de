import EnhancedXv6.LogProtocol

namespace EnhancedXv6.LogProtocol

open Function (update update_of_ne update_self)

namespace Proc

def logged : Proc → List ℕ
  | op logged => logged
  | write logged _ => logged
  | _ => []

def left (c : Proc) : ℕ := if c.inOp then MAXOPBLOCKS - 1 - c.logged.length else 0

@[simp] theorem logged_wakeup (c : Proc) : c.wakeup.logged = c.logged := by cases c <;> rfl

theorem wakeup_eq_write {c : Proc} {bs : List ℕ} {b : ℕ} : c.wakeup = write bs b ↔ c = write bs b := by
  cases c <;> simp [wakeup]

@[simp] theorem left_op (bs : List ℕ) : (op bs).left = MAXOPBLOCKS - 1 - bs.length := rfl

@[simp] theorem left_write (bs : List ℕ) (b : ℕ) : (write bs b).left = MAXOPBLOCKS - 1 - bs.length := rfl

theorem left_of_not_inOp {c : Proc} (h : c.inOp = false) : c.left = 0 := by simp [left, h]

theorem left_le (c : Proc) : c.left ≤ (MAXOPBLOCKS - 1) * c.active := by
  cases c <;> simp [left, active, inOp]

end Proc

end EnhancedXv6.LogProtocol

namespace EnhancedXv6.LogSpace

open Function (update update_of_ne update_self)
open Transition Machine Counting LogProtocol

variable {P : Type*}

def Within (k : ℕ) (s : State P) : Label P → Prop
  | .logCheck p blockno => ((s.proc p).logged.insert blockno).length ≤ k
  | _ => True

def formatted (P : Type*) [DecidableEq P] : Machine (State P) (Label P) :=
  { machine P with initial := fun s => s = { log := .mkfs } }

variable [Fintype P]

structure Reserved (s : State P) : Prop where
  size : s.log.size = LOGSIZE
  bound : s.log.lh.length + total Proc.left s.proc ≤ LOGSIZE - 2
  logged : ∀ p, ∀ b ∈ (s.proc p).logged, b ∈ s.log.lh
  write : ∀ p bs b, s.proc p = .write bs b → (bs.insert b).length ≤ MAXOPBLOCKS - 1

namespace Reserved

variable {s t : State P} {p : P} {bs : List ℕ} {l : Label P}

theorem logCheck_eq_ok (h : Reserved s) (hs : Ordered s) (hp : (s.proc p).inOp) : s.log.logCheck = .ok () := by
  have hb := h.bound
  have ha := hs.outstanding_pos hp
  rw [Log.logCheck_eq_ok, h.size]
  simp only [LOGSIZE, MAXOPBLOCKS] at hb ⊢
  exact ⟨by omega, by omega, ha⟩

theorem wakeup (h : Reserved s) : Reserved s.wakeup where
  size := h.size
  bound := by
    have hsame : total Proc.left s.wakeup.proc = total Proc.left s.proc :=
      total_congr fun p => by simp [State.wakeup, Proc.left]
    rw [hsame]
    exact h.bound
  logged p b hb := h.logged p b (by simpa [State.wakeup] using hb)
  write p bs b hp := h.write p bs b (Proc.wakeup_eq_write.1 hp)

theorem not_panics (h : Reserved s) (hs : Ordered s) {e : String} : ¬ Panics s l e := by
  intro he
  cases he with
  | @logCheck p bs b _ hp he =>
    rw [h.logCheck_eq_ok hs (p := p) (by rw [hp]; rfl)] at he
    cases he
  | @endOp p bs hp hc =>
    rw [hs.not_committing (p := p) (by rw [hp]; rfl)] at hc
    cases hc

theorem initial : Reserved ({ log := .mkfs } : State P) := by
  have hl : total Proc.left (fun _ : P => .out) = 0 := total_eq_zero_iff.2 fun _ => rfl
  exact ⟨rfl, by rw [hl]; exact Nat.zero_le _, by simp [Proc.logged], by simp⟩

variable [DecidableEq P]

theorem move (h : Reserved s) {c : Proc} (log : Log) (hsize : log.size = s.log.size)
    (hbound : log.lh.length + total Proc.left s.proc + c.left ≤ LOGSIZE - 2 + (s.proc p).left)
    (hold : ∀ q ≠ p, ∀ b ∈ (s.proc q).logged, b ∈ log.lh) (hnew : ∀ b ∈ c.logged, b ∈ log.lh)
    (hwrite : ∀ bs b, c = .write bs b → (bs.insert b).length ≤ MAXOPBLOCKS - 1) :
    Reserved ((s.setLog log).setProc p c) where
  size := hsize.trans h.size
  bound := by
    have hu := total_update Proc.left s.proc p c
    change log.lh.length + total Proc.left (update s.proc p c) ≤ _
    omega
  logged q b hb := by
    change b ∈ (update s.proc p c q).logged at hb
    by_cases hq : q = p
    · subst hq
      rw [update_self] at hb
      exact hnew b hb
    · rw [update_of_ne hq] at hb
      exact hold q hq b hb
  write q bs b hq := by
    change update s.proc p c q = _ at hq
    by_cases hqp : q = p
    · subst hqp
      rw [update_self] at hq
      exact hwrite bs b hq
    · rw [update_of_ne hqp] at hq
      exact h.write q bs b hq

theorem idle (h : Reserved s) {c : Proc} (log : Log) (hsize : log.size = s.log.size) (hlh : log.lh = s.log.lh)
    (hc : c.inOp = false) : Reserved ((s.setLog log).setProc p c) := by
  have hb := h.bound
  have hnone : c.logged = [] := by cases c <;> simp_all [Proc.inOp, Proc.logged]
  refine h.move log hsize ?_ (fun q _ => hlh ▸ h.logged q) (by simp [hnone]) (fun bs b hw => ?_)
  · rw [hlh, Proc.left_of_not_inOp hc]
    omega
  · rw [hw] at hc
    cases hc

theorem enter (h : Reserved s) (hs : Ordered s) (hc : s.log.committing = false)
    (hroom : s.log.lh.length + (s.log.outstanding + 1) * MAXOPBLOCKS ≤ LOGSIZE) :
    Reserved ((s.setLog { s.log with outstanding := s.log.outstanding + 1 }).setProc p (.op [])) := by
  refine h.move _ rfl ?_ (fun q _ => h.logged q) (by simp [Proc.logged]) (by simp)
  have hle := total_le_mul Proc.left_le s.proc
  have hlen : s.log.outstanding = 0 → s.log.lh.length = 0 := fun h0 => by rw [hs.empty hc h0]; rfl
  rw [← hs.outstanding] at hle
  rw [Proc.left_op, List.length_nil]
  simp only [LOGSIZE, MAXOPBLOCKS] at hle hroom ⊢
  omega

theorem logWrite (h : Reserved s) {b : ℕ} (hp : s.proc p = .write bs b) :
    Reserved ((s.setLog (s.log.logWrite b)).setProc p (.op (bs.insert b))) := by
  have hmem : ∀ c, c ∈ s.log.lh → c ∈ (s.log.logWrite b).lh := fun c hc => Log.mem_logWrite.2 (.inl hc)
  have hold : ∀ c ∈ bs, c ∈ s.log.lh := fun c hc => h.logged p c (by rw [hp]; exact hc)
  refine h.move _ rfl ?_ (fun q _ c hc => hmem c (h.logged q c hc)) ?_ (by simp)
  · have hw := h.write p bs b hp
    have hb := h.bound
    have hlen : (s.log.logWrite b).lh.length + bs.length ≤ s.log.lh.length + (bs.insert b).length := by
      unfold Log.logWrite
      by_cases hbs : b ∈ bs
      · simp [hbs, hold b hbs]
      · rw [List.length_insert, if_neg hbs]
        dsimp only
        split_ifs
        · omega
        · simp; omega
    have hle : bs.length ≤ (bs.insert b).length := List.length_le_length_insert
    rw [hp, Proc.left_write, Proc.left_op]
    omega
  · intro c hc
    rcases List.mem_insert_iff.1 hc with rfl | hc
    · exact Log.mem_logWrite.2 (.inr rfl)
    · exact hmem c (hold c hc)

theorem commit (h : Reserved s) (hs : Ordered s) (hp : s.proc p = .commit) :
    Reserved ((s.setLog { s.log with lh := [] }).setProc p .committed) := by
  have hc := hs.committing (p := p) (by rw [hp]; rfl)
  have hlogged (q : P) : (s.proc q).logged = [] := by
    have hq : (s.proc q).inOp = false := by
      by_contra hin
      rw [hs.not_committing (by simpa using hin)] at hc
      cases hc
    cases e : s.proc q <;> simp_all [Proc.inOp, Proc.logged]
  have hb := h.bound
  refine h.move _ rfl ?_ (fun q _ b hq => ?_) (by simp [Proc.logged]) (by simp)
  · rw [Proc.left_of_not_inOp (c := .committed) rfl]
    change 0 + _ + 0 ≤ _
    omega
  · rw [hlogged q] at hq
    cases hq

theorem steps (h : Reserved s) (hs : Ordered s) (hc : Within (MAXOPBLOCKS - 1) s l) (ht : Steps s l t) : Reserved t := by
  cases ht with
  | wait hp hl => exact h.idle s.log rfl rfl rfl
  | enter hp hcom hroom => exact h.enter hs hcom hroom
  | @logCheck p bs b hp =>
    have hb := h.bound
    refine h.move s.log rfl ?_ (fun q _ => h.logged q) (fun c hc => h.logged p c (by rw [hp]; exact hc)) ?_
    · rw [hp, Proc.left_op, Proc.left_write]
      omega
    · rintro _ _ ⟨⟩
      simpa [Within, hp, Proc.logged] using hc
  | logWrite hp => exact h.logWrite hp
  | last hp h0 => exact h.idle _ rfl rfl rfl
  | leave hp h0 => exact (h.idle { s.log with outstanding := s.log.outstanding - 1, committing := false } rfl rfl rfl).wakeup
  | commit hp => exact h.commit hs hp
  | endCommit hp => exact (h.idle { s.log with committing := false } rfl rfl rfl).wakeup
  | kill hp => exact h.idle s.log rfl rfl rfl

end Reserved

variable [DecidableEq P]

theorem no_panic_of_within (s : State P) (h : (formatted P).ReachableWhere (Within (MAXOPBLOCKS - 1)) s) :
    s.panic = none := by
  have hr : Sane s ∧ Reserved s ∧ s.panic = none := by
    refine h.invariant (P := fun s => Sane s ∧ Reserved s ∧ s.panic = none) ?_ ?_
    · rintro s rfl
      exact ⟨reachable_sane (.initial ⟨_, _, rfl⟩), .initial, rfl⟩
    · rintro s l t - ⟨hsane, hres, hn⟩ hc hs
      obtain ⟨-, ht | ⟨e, he, -⟩⟩ := step_cases hs
      · exact ⟨hsane.step hs, hres.steps hsane.ordered hc ht, (by cases ht <;> exact hn)⟩
      · exact absurd he (hres.not_panics hsane.ordered)
  exact hr.2.2

instance (k : ℕ) (s : State P) (l : Label P) : Decidable (Within k s l) := by
  unfold Within
  split <;> infer_instance

def logs (p : P) (b n : ℕ) : List (Label P) :=
  (List.range n).flatMap (fun i => [.logCheck p (b + i), .logWrite p])

theorem no_panic_three_ops : ∃ s : State (Fin 3), s.log.lh.length = 27 ∧ s.panic = none := by
  have hrun : ((formatted (Fin 3)).runWhere (Within (MAXOPBLOCKS - 1)) { log := .mkfs }
      ([.beginOp 0, .beginOp 1, .beginOp 2] ++ logs 0 40 9 ++ logs 1 60 9 ++ logs 2 80 9)).any (fun s =>
        s.log.lh.length = 27) := by decide +kernel
  obtain ⟨s, hr, hp⟩ := exists_reachableWhere rfl hrun
  exact ⟨s, of_decide_eq_true hp, no_panic_of_within s hr⟩

theorem three_ops_too_big : ∃ s : State (Fin 3),
    (formatted (Fin 3)).ReachableWhere (Within MAXOPBLOCKS) s ∧ s.panic = some "too big a transaction" := by
  have hrun : ((formatted (Fin 3)).runWhere (Within MAXOPBLOCKS) { log := .mkfs }
      ([.beginOp 0, .beginOp 1, .beginOp 2] ++ logs 0 40 10 ++ logs 1 60 10 ++ logs 2 80 9 ++
        [.logCheck 2 89])).any (fun s => s.panic = some "too big a transaction") := by decide +kernel
  obtain ⟨s, hr, hp⟩ := exists_reachableWhere rfl hrun
  exact ⟨s, hr, of_decide_eq_true hp⟩

end EnhancedXv6.LogSpace
