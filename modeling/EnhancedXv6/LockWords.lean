import EnhancedXv6.Transition
import Mathlib.Data.Int.Notation
import Mathlib.Logic.Function.Basic

namespace EnhancedXv6.LockWords

open Transition

variable {P ι : Type*}

structure Lock (P : Type*) where
  locked : Bool := false
  cpu : Option P := none

inductive Panic (ι : Type*)
  | acquire (l : ι)
  | release (l : ι)
  | popcli
  | interruptible
  deriving DecidableEq

inductive Pc (ι : Type*)
  | run
  | test (l : ι) (acquires : Bool)
  | owner (l : ι) (acquires : Bool)
  | xchg (l : ι)
  | setCpu (l : ι)
  | clearCpu (l : ι)
  | unlock (l : ι)
  | panic (e : Panic ι)
  deriving DecidableEq

/-- `ie` is the flag `FL_IF`, and `frames` is where the interrupted code goes on. No step of a lock reads `pushed`, `held` (the locks
between the return of `acquire` and the test of `release`) or `outer` (the flag as it was set outside of all calls). -/
structure Cpu (ι : Type*) where
  pc : Pc ι := .run
  ncli : ℤ := 0
  intena : Bool := false
  ie : Bool := false
  frames : List (Pc ι) := []
  pushed : ℕ := 0
  held : List ι := []
  outer : Bool := false

inductive Call (ι : Type*)
  | acquire (l : ι)
  | release (l : ι)
  | pushcli
  | popcli
  | cli
  | sti
  | interrupt
  | iret

namespace Cpu

def panic (x : Cpu ι) (e : Panic ι) : Cpu ι := { x with pc := .panic e, ie := false }

def pushcli (x : Cpu ι) (pc : Pc ι) : Cpu ι :=
  { x with ie := false, intena := if x.ncli = 0 then x.ie else x.intena, ncli := x.ncli + 1, pc := pc }

def popcli (x : Cpu ι) (pc : Pc ι) : Cpu ι :=
  if x.ie then x.panic .interruptible
  else if x.ncli - 1 < 0 then x.panic .popcli
  else { x with ncli := x.ncli - 1, ie := decide (x.ncli - 1 = 0) && x.intena, pc := pc }

/-- `popcli` is called to undo a `pushcli`, and a handler returns when it has given back what it took. -/
def call (x : Cpu ι) (e : Call ι) : Option (Cpu ι) := match e, x.pc with
  | .interrupt, pc => if x.ie then some { x with ie := false, outer := false, pc := .run, frames := pc :: x.frames } else none
  | .acquire l, .run => some ((x.pushcli .run).pushcli (.test l true))
  | .release l, .run => some (x.pushcli (.test l false))
  | .pushcli, .run => some { x.pushcli .run with pushed := x.pushed + 1 }
  | .popcli, .run => if 0 < x.pushed then some { x.popcli .run with pushed := x.pushed - 1 } else none
  | .cli, .run => if x.ncli = 0 then some { x with ie := false, outer := false } else none
  | .sti, .run => if x.ncli = 0 then some { x with ie := true, outer := true } else none
  | .iret, .run => match x.frames with
    | pc :: frames => if x.ncli = 0 then some { x with ie := true, outer := true, pc := pc, frames := frames } else none
    | [] => none
  | _, _ => none

def decided [DecidableEq ι] (x : Cpu ι) (l : ι) (acquires r : Bool) : Cpu ι :=
  let y := x.popcli .run
  if y.pc = .run then
    match acquires, r with
    | true, true => y.panic (.acquire l)
    | true, false => { y with pc := .xchg l }
    | false, true => { y with pc := .clearCpu l, held := y.held.erase l }
    | false, false => y.panic (.release l)
  else y

end Cpu

structure State (P ι : Type*) where
  lock : ι → Lock P
  cpu : P → Cpu ι

inductive Label (P ι : Type*)
  | call (c : P) (e : Call ι)
  | go (c : P)

namespace State

variable [DecidableEq P]

def setCpu (s : State P ι) (c : P) (x : Cpu ι) : State P ι := { s with cpu := Function.update s.cpu c x }

variable [DecidableEq ι]

def set (s : State P ι) (l : ι) (k : Lock P) (c : P) (x : Cpu ι) : State P ι := ⟨Function.update s.lock l k, Function.update s.cpu c x⟩

def go (s : State P ι) (c : P) : Option (State P ι) :=
  let x := s.cpu c
  match x.pc with
  | .test l a => some (s.setCpu c (if (s.lock l).locked then { x with pc := .owner l a } else x.decided l a false))
  | .owner l a => some (s.setCpu c (x.decided l a (decide ((s.lock l).cpu = some c))))
  | .xchg l => some (if (s.lock l).locked then s else s.set l { s.lock l with locked := true } c { x with pc := .setCpu l })
  | .setCpu l => some (s.set l { s.lock l with cpu := some c } c { x with pc := .run, held := l :: x.held })
  | .clearCpu l => some (s.set l { s.lock l with cpu := none } c { x with pc := .unlock l })
  | .unlock l => some (s.set l { s.lock l with locked := false } c (x.popcli .run))
  | .run | .panic _ => none

def step (s : State P ι) : Label P ι → Option (State P ι)
  | .call c e => ((s.cpu c).call e).map (s.setCpu c)
  | .go c => s.go c

end State

def machine (P ι : Type*) [DecidableEq P] [DecidableEq ι] : Machine (State P ι) (Label P ι) where
  initial s := (∀ l, s.lock l = {}) ∧ ∀ c, s.cpu c = {}
  next := State.step

namespace Pc

def depth : Pc ι → ℕ
  | .run | .panic _ => 0
  | .test _ acquires | .owner _ acquires => if acquires then 2 else 1
  | .xchg _ | .setCpu _ | .clearCpu _ | .unlock _ => 1

def takes : Pc ι → Option ι
  | .setCpu l | .clearCpu l | .unlock l => some l
  | _ => none

end Pc

namespace Cpu

variable {x y : Cpu ι} {l : ι}

def Has (x : Cpu ι) (l : ι) : Prop := l ∈ x.held ∨ x.pc.takes = some l

def Owns (x : Cpu ι) (l : ι) : Prop := l ∈ x.held ∨ x.pc = .clearCpu l

theorem Owns.has (h : x.Owns l) : x.Has l := h.imp_right (fun hpc => by simp [hpc, Pc.takes])

structure Sane (x : Cpu ι) : Prop where
  frames : ∀ pc ∈ x.frames, pc = .run
  nodup : x.held.Nodup
  outside : ∀ l, x.pc = .xchg l ∨ x.pc.takes = some l → l ∉ x.held
  panic : ∀ e, x.pc = .panic e → x.ie = false ∧ ∃ l, e = .acquire l ∧ l ∈ x.held ∨ e = .release l ∧ l ∉ x.held
  ncli : (∀ e, x.pc ≠ .panic e) → x.ncli = x.held.length + x.pushed + x.pc.depth
  flags : (∀ e, x.pc ≠ .panic e) → if x.ncli = 0 then x.ie = x.outer else x.ie = false ∧ x.intena = x.outer

def Masked (x : Cpu ι) : Prop := x.ie = false ∧ x.intena = x.outer ∧ 0 < x.ncli

theorem Masked.pushcli (h : x.Masked) (pc : Pc ι) : (x.pushcli pc).Masked := by
  obtain ⟨-, hin, hpos⟩ := h
  refine ⟨rfl, ?_, ?_⟩
  · rw [Cpu.pushcli, if_neg (by omega)]
    exact hin
  · rw [Cpu.pushcli]
    dsimp only
    omega

theorem popcli_eq (hie : x.ie = false) (hpos : 0 < x.ncli) (pc : Pc ι) :
    x.popcli pc = { x with ncli := x.ncli - 1, ie := decide (x.ncli - 1 = 0) && x.intena, pc := pc } := by
  rw [popcli, if_neg (by simp [hie]), if_neg (by omega)]

theorem Masked.flags (h : x.Masked) : if x.ncli - 1 = 0 then (decide (x.ncli - 1 = 0) && x.intena) = x.outer
    else (decide (x.ncli - 1 = 0) && x.intena) = false ∧ x.intena = x.outer := by
  obtain ⟨-, hin, -⟩ := h
  split_ifs with hz
  · simp [hz, hin]
  · simp [hz, hin]

namespace Sane

theorem of_ne_panic (hp : ∀ e, x.pc ≠ .panic e) (hframes : ∀ pc ∈ x.frames, pc = .run) (hnodup : x.held.Nodup)
    (hout : ∀ l, x.pc = .xchg l ∨ x.pc.takes = some l → l ∉ x.held) (hncli : x.ncli = x.held.length + x.pushed + x.pc.depth)
    (hflags : if x.ncli = 0 then x.ie = x.outer else x.ie = false ∧ x.intena = x.outer) : x.Sane :=
  ⟨hframes, hnodup, hout, fun e he => absurd he (hp e), fun _ => hncli, fun _ => hflags⟩

theorem of_masked (hm : x.Masked) (hp : ∀ e, x.pc ≠ .panic e) (hframes : ∀ pc ∈ x.frames, pc = .run) (hnodup : x.held.Nodup)
    (hout : ∀ l, x.pc = .xchg l ∨ x.pc.takes = some l → l ∉ x.held) (hncli : x.ncli = x.held.length + x.pushed + x.pc.depth) :
    x.Sane := by
  refine of_ne_panic hp hframes hnodup hout hncli ?_
  rw [if_neg (by have := hm.2.2; omega)]
  exact ⟨hm.1, hm.2.1⟩

theorem masked (h : x.Sane) (hp : ∀ e, x.pc ≠ .panic e) (hd : 0 < x.held.length + x.pushed + x.pc.depth) : x.Masked := by
  have hn := h.ncli hp
  have hf := h.flags hp
  rw [if_neg (by omega)] at hf
  exact ⟨hf.1, hf.2, by omega⟩

theorem run_of_ie (h : x.Sane) (hie : x.ie = true) : x.pc = .run ∧ x.held = [] ∧ x.ncli = 0 := by
  have hp : ∀ e, x.pc ≠ .panic e := by
    intro e he
    rw [(h.panic e he).1] at hie
    cases hie
  have hzero : ¬ 0 < x.held.length + x.pushed + x.pc.depth := by
    intro hd
    rw [(h.masked hp hd).1] at hie
    cases hie
  have hdepth : x.pc.depth = 0 := by omega
  refine ⟨?_, List.eq_nil_of_length_eq_zero (by omega), ?_⟩
  · cases hpc : x.pc with
    | run => rfl
    | panic e => exact absurd hpc (hp e)
    | test l a | owner l a => cases a <;> simp [hpc, Pc.depth] at hdepth
    | _ => simp [hpc, Pc.depth] at hdepth
  · rw [h.ncli hp]
    omega

theorem pushcli (h : x.Sane) (hp : ∀ e, x.pc ≠ .panic e) (pc : Pc ι) : (x.pushcli pc).Masked := by
  have hf := h.flags hp
  have hn := h.ncli hp
  refine ⟨rfl, ?_, ?_⟩
  · rw [Cpu.pushcli]
    split_ifs at hf ⊢
    · exact hf
    · exact hf.2
  · rw [Cpu.pushcli]
    dsimp only
    omega

theorem call {e : Call ι} (h : x.Sane) (hs : x.call e = some y) :
    y.Sane ∧ y.held = x.held ∧ x.pc = .run ∧ (y.pc = .run ∨ ∃ l a, y.pc = .test l a) := by
  have hframes := h.frames
  have hrun (hpc : x.pc = .run) : (∀ e, x.pc ≠ .panic e) ∧ x.ncli = x.held.length + x.pushed := by
    have hp : ∀ e, x.pc ≠ .panic e := by simp [hpc]
    exact ⟨hp, by simpa [hpc, Pc.depth] using h.ncli hp⟩
  unfold Cpu.call at hs
  split at hs
  case h_1 =>
    split_ifs at hs with hie
    obtain ⟨hpc, hheld, hzero⟩ := h.run_of_ie hie
    cases hs
    refine ⟨of_ne_panic (by simp) ?_ h.nodup (by simp [Pc.takes]) (hrun hpc).2 ?_, rfl, hpc, .inl rfl⟩
    · exact List.forall_mem_cons.mpr ⟨hpc, hframes⟩
    · rw [if_pos hzero]
  case h_2 l hpc =>
    cases hs
    obtain ⟨hp, hn⟩ := hrun hpc
    refine ⟨of_masked ((h.pushcli hp _).pushcli _) (by simp [Cpu.pushcli]) hframes h.nodup (by simp [Cpu.pushcli, Pc.takes]) ?_,
      rfl, hpc, .inr ⟨l, _, rfl⟩⟩
    simp only [Cpu.pushcli, Pc.depth, if_true]
    omega
  case h_3 l hpc =>
    cases hs
    obtain ⟨hp, hn⟩ := hrun hpc
    refine ⟨of_masked (h.pushcli hp _) (by simp [Cpu.pushcli]) hframes h.nodup (by simp [Cpu.pushcli, Pc.takes]) ?_,
      rfl, hpc, .inr ⟨l, _, rfl⟩⟩
    simp [Cpu.pushcli, Pc.depth, hn]
  case h_4 hpc =>
    cases hs
    obtain ⟨hp, hn⟩ := hrun hpc
    refine ⟨of_masked (h.pushcli hp .run) (by simp [Cpu.pushcli]) hframes h.nodup (by simp [Cpu.pushcli, Pc.takes]) ?_,
      rfl, hpc, .inl rfl⟩
    simp only [Cpu.pushcli, Pc.depth]
    omega
  case h_5 hpc =>
    split_ifs at hs with hpos
    cases hs
    obtain ⟨hp, hn⟩ := hrun hpc
    have hm := h.masked hp (by omega)
    rw [popcli_eq hm.1 hm.2.2]
    refine ⟨of_ne_panic (by simp) hframes h.nodup (by simp [Pc.takes]) ?_ hm.flags, rfl, hpc, .inl rfl⟩
    simp only [Pc.depth]
    omega
  case h_6 hpc | h_7 hpc =>
    split_ifs at hs with hzero
    cases hs
    refine ⟨of_ne_panic (hrun hpc).1 hframes h.nodup h.outside (h.ncli (hrun hpc).1) ?_, rfl, hpc, .inl hpc⟩
    rw [if_pos hzero]
  case h_8 hpc =>
    split at hs
    · next pc frames hf =>
      rw [hf] at hframes
      split_ifs at hs with hzero
      cases hs
      obtain ⟨rfl, hrest⟩ := List.forall_mem_cons.mp hframes
      refine ⟨of_ne_panic (by simp) hrest h.nodup (by simp [Pc.takes]) (hrun hpc).2 ?_, rfl, hpc, .inl rfl⟩
      rw [if_pos hzero]
    · cases hs
  case h_9 => cases hs

theorem decided [DecidableEq ι] (h : x.Sane) {a r : Bool} (hpc : x.pc = .test l a ∨ x.pc = .owner l a) (hr : r = true ↔ l ∈ x.held) :
    (x.decided l a r).Sane ∧ ∀ j, ((x.decided l a r).Has j ↔ x.Has j) ∧ ((x.decided l a r).Owns j ↔ x.Owns j) := by
  have hp : ∀ e, x.pc ≠ .panic e := by
    rintro e he
    rcases hpc with hpc | hpc <;> simp [hpc] at he
  have hn := h.ncli hp
  have hdepth : x.pc.depth = if a then 2 else 1 := by rcases hpc with hpc | hpc <;> simp [hpc, Pc.depth]
  have hm := h.masked hp (by rw [hdepth]; split_ifs <;> omega)
  have hheld : ∀ j, (x.Has j ↔ j ∈ x.held) ∧ (x.Owns j ↔ j ∈ x.held) := by
    rcases hpc with hpc | hpc <;> simp [Has, Owns, Pc.takes, hpc]
  simp only [hheld]
  rw [hdepth] at hn
  cases a with
  | true =>
    cases r with
    | true =>
      -- `acquire` finds that this CPU holds the lock
      simp only [Cpu.decided, popcli_eq hm.1 hm.2.2, if_pos, Cpu.panic]
      refine ⟨⟨h.frames, h.nodup, by simp [Pc.takes], ?_, by simp, by simp⟩, by simp [Has, Owns, Pc.takes]⟩
      intro e he
      cases he
      exact ⟨rfl, l, .inl ⟨rfl, hr.mp rfl⟩⟩
    | false =>
      have hl : l ∉ x.held := fun hl => by simpa using hr.mpr hl
      simp only [Cpu.decided, popcli_eq hm.1 hm.2.2, if_pos]
      refine ⟨of_ne_panic (by simp) h.frames h.nodup ?_ ?_ hm.flags, by simp [Has, Owns, Pc.takes]⟩
      · simpa [Pc.takes] using hl
      · simp only [Pc.depth]
        rw [if_pos rfl] at hn
        omega
  | false =>
    cases r with
    | true =>
      have hl := hr.mp rfl
      have hlen := List.length_erase_of_mem hl
      have hpos := List.length_pos_of_mem hl
      have hmem := fun j => h.nodup.mem_erase_iff (a := j) (b := l)
      simp only [Cpu.decided, popcli_eq hm.1 hm.2.2, if_pos]
      refine ⟨of_ne_panic (by simp) h.frames (h.nodup.erase l) ?_ ?_ hm.flags, fun j => ?_⟩
      · simp [Pc.takes, hmem]
      · simp only [Pc.depth]
        rw [if_neg (by simp)] at hn
        omega
      · by_cases hj : j = l
        · simp [Has, Owns, Pc.takes, hj, hl]
        · simp [Has, Owns, Pc.takes, hmem, hj, Ne.symm hj]
    | false =>
      have hl : l ∉ x.held := fun hl => by simpa using hr.mpr hl
      simp only [Cpu.decided, popcli_eq hm.1 hm.2.2, if_pos, Cpu.panic]
      refine ⟨⟨h.frames, h.nodup, by simp [Pc.takes], ?_, by simp, by simp⟩, by simp [Has, Owns, Pc.takes]⟩
      intro e he
      cases he
      exact ⟨rfl, l, .inr ⟨rfl, hl⟩⟩

end Sane

end Cpu

structure Inv (s : State P ι) : Prop where
  word : ∀ l, (s.lock l).locked = true ↔ ∃ c, (s.cpu c).Has l
  one : ∀ c d l, (s.cpu c).Has l → (s.cpu d).Has l → c = d
  owner : ∀ c l, (s.lock l).cpu = some c ↔ (s.cpu c).Owns l
  sane : ∀ c, (s.cpu c).Sane

namespace Inv

variable {s t : State P ι} {c : P} {x : Cpu ι}

theorem not_has {l : ι} (h : Inv s) (hc : (s.cpu c).Has l) (d : P) (hd : d ≠ c) : ¬ (s.cpu d).Has l := fun hx => hd (h.one d c l hx hc)

variable [DecidableEq P]

theorem setCpu (h : Inv s) (hh : ∀ l, x.Has l ↔ (s.cpu c).Has l) (ho : ∀ l, x.Owns l ↔ (s.cpu c).Owns l) (hx : x.Sane) :
    Inv (s.setCpu c x) := by
  have hc : ∀ d, (s.setCpu c x).cpu d = if d = c then x else s.cpu d := fun d => Function.update_apply ..
  have hhas : ∀ d l, ((s.setCpu c x).cpu d).Has l ↔ (s.cpu d).Has l := by
    intro d l
    rw [hc]
    split_ifs with e
    · rw [e, hh]
    · rfl
  refine ⟨fun l => ?_, fun a b l ha hb => h.one a b l ((hhas a l).mp ha) ((hhas b l).mp hb), fun d l => ?_, fun d => ?_⟩
  · simp only [hhas]
    exact h.word l
  · rw [hc]
    split_ifs with e
    · rw [e, ho]
      exact h.owner c l
    · exact h.owner d l
  · rw [hc]
    split_ifs
    · exact hx
    · exact h.sane d

variable [DecidableEq ι] {l : ι} {k : Lock P}

theorem set (h : Inv s) (hx : x.Sane) (hh : ∀ j, j ≠ l → (x.Has j ↔ (s.cpu c).Has j)) (ho : ∀ j, j ≠ l → (x.Owns j ↔ (s.cpu c).Owns j))
    (hword : k.locked = true ↔ x.Has l ∨ ∃ d, d ≠ c ∧ (s.cpu d).Has l) (hone : x.Has l → ∀ d, d ≠ c → ¬ (s.cpu d).Has l)
    (howner : ∀ d, k.cpu = some d ↔ if d = c then x.Owns l else (s.cpu d).Owns l) : Inv (s.set l k c x) := by
  have hc : ∀ d, (s.set l k c x).cpu d = if d = c then x else s.cpu d := fun d => Function.update_apply ..
  have hl : ∀ j, (s.set l k c x).lock j = if j = l then k else s.lock j := fun j => Function.update_apply ..
  have hhas : ∀ d j, j ≠ l → (((s.set l k c x).cpu d).Has j ↔ (s.cpu d).Has j) := by
    intro d j hj
    rw [hc]
    split_ifs with e
    · rw [e, hh j hj]
    · rfl
  refine ⟨fun j => ?_, fun a b j ha hb => ?_, fun d j => ?_, fun d => ?_⟩
  · by_cases hj : j = l
    · subst hj
      rw [hl, if_pos rfl, hword]
      constructor
      · rintro (hx | ⟨d, hd, hx⟩)
        · exact ⟨c, by rwa [hc, if_pos rfl]⟩
        · exact ⟨d, by rwa [hc, if_neg hd]⟩
      · rintro ⟨d, hd⟩
        rw [hc] at hd
        split_ifs at hd with e
        · exact .inl hd
        · exact .inr ⟨d, e, hd⟩
    · rw [hl, if_neg hj, h.word]
      exact exists_congr (fun d => (hhas d j hj).symm)
  · by_cases hj : j = l
    · subst hj
      rw [hc] at ha hb
      split_ifs at ha hb with ea eb
      · rw [ea, eb]
      · exact absurd hb (hone ha b eb)
      · exact absurd ha (hone hb a ea)
      · exact h.one a b j ha hb
    · exact h.one a b j ((hhas a j hj).mp ha) ((hhas b j hj).mp hb)
  · rw [hl, hc]
    by_cases hj : j = l
    · subst hj
      rw [if_pos rfl, howner]
      split_ifs <;> rfl
    · rw [if_neg hj, h.owner]
      split_ifs with e
      · rw [e, ho j hj]
      · rfl
  · rw [hc]
    split_ifs
    · exact hx
    · exact h.sane d

theorem go (h : Inv s) (hs : s.go c = some t) : Inv t := by
  have hx := h.sane c
  have howner (l : ι) {x : Cpu ι} (ho : x.Owns l ↔ (s.cpu c).Owns l) (d : P) :
      (s.lock l).cpu = some d ↔ if d = c then x.Owns l else (s.cpu d).Owns l := by
    rw [h.owner]
    split_ifs with e
    · rw [e, ho]
    · rfl
  unfold State.go at hs
  dsimp only at hs
  split at hs
  case h_1 l a hpc =>
    have hp : ∀ e, (s.cpu c).pc ≠ .panic e := by simp [hpc]
    cases hs
    split_ifs with hl
    · refine h.setCpu (by simp [Cpu.Has, Pc.takes, hpc]) (by simp [Cpu.Owns, hpc])
        (.of_ne_panic (by simp) hx.frames hx.nodup (by simp [Pc.takes]) ?_ (hx.flags hp))
      rw [hx.ncli hp, hpc]
      rfl
    · have hfree : l ∉ (s.cpu c).held := fun hm => hl ((h.word l).mpr ⟨c, .inl hm⟩)
      obtain ⟨hsane, hj⟩ := hx.decided (r := false) (.inl hpc) (by simpa using hfree)
      exact h.setCpu (fun j => (hj j).1) (fun j => (hj j).2) hsane
  case h_2 l a hpc =>
    cases hs
    obtain ⟨hsane, hj⟩ := hx.decided (r := decide ((s.lock l).cpu = some c)) (.inr hpc)
      (by rw [decide_eq_true_iff, h.owner]; simp [Cpu.Owns, hpc])
    exact h.setCpu (fun j => (hj j).1) (fun j => (hj j).2) hsane
  case h_3 l hpc =>
    have hp : ∀ e, (s.cpu c).pc ≠ .panic e := by simp [hpc]
    have hout := hx.outside l (.inl hpc)
    cases hs
    split_ifs with hl
    · exact h
    · have hnot : ∀ d, ¬ (s.cpu d).Has l := fun d hd => hl ((h.word l).mpr ⟨d, hd⟩)
      refine h.set (.of_ne_panic (by simp) hx.frames hx.nodup (by simpa [Pc.takes] using hout) ?_ (hx.flags hp))
        (fun j hj => by simp [Cpu.Has, Pc.takes, hpc, Ne.symm hj]) (by simp [Cpu.Owns, hpc]) (by simp [Cpu.Has, Pc.takes])
        (fun _ d _ => hnot d) (howner l (by simp [Cpu.Owns, hpc]))
      rw [hx.ncli hp, hpc]
      rfl
  case h_4 l hpc =>
    have hp : ∀ e, (s.cpu c).pc ≠ .panic e := by simp [hpc]
    have hout := hx.outside l (.inr (by rw [hpc]; rfl))
    have hhas : (s.cpu c).Has l := by simp [Cpu.Has, Pc.takes, hpc]
    have hn := hx.ncli hp
    rw [hpc] at hn
    cases hs
    refine h.set (.of_ne_panic (by simp) hx.frames (List.nodup_cons.mpr ⟨hout, hx.nodup⟩) (by simp [Pc.takes]) ?_ (hx.flags hp))
      (fun j hj => by simp [Cpu.Has, Pc.takes, hpc, hj, Ne.symm hj]) (fun j hj => by simp [Cpu.Owns, hpc, hj])
      (iff_of_true ((h.word l).mpr ⟨c, hhas⟩) (.inl (by simp [Cpu.Has]))) (fun _ => h.not_has hhas) (fun d => ?_)
    · simp only [Pc.depth, List.length_cons] at hn ⊢
      omega
    · split_ifs with e
      · simp [e, Cpu.Owns]
      · exact iff_of_false (by simpa using Ne.symm e) (fun hd => h.not_has hhas d e hd.has)
  case h_5 l hpc =>
    have hp : ∀ e, (s.cpu c).pc ≠ .panic e := by simp [hpc]
    have hout := hx.outside l (.inr (by rw [hpc]; rfl))
    have hhas : (s.cpu c).Has l := by simp [Cpu.Has, Pc.takes, hpc]
    cases hs
    refine h.set (.of_ne_panic (by simp) hx.frames hx.nodup (by simpa [Pc.takes] using hout) ?_ (hx.flags hp))
      (fun j hj => by simp [Cpu.Has, Pc.takes, hpc]) (fun j hj => by simp [Cpu.Owns, hpc, Ne.symm hj])
      (iff_of_true ((h.word l).mpr ⟨c, hhas⟩) (.inl (by simp [Cpu.Has, Pc.takes]))) (fun _ => h.not_has hhas) (fun d => ?_)
    · rw [hx.ncli hp, hpc]
      rfl
    · refine iff_of_false (by simp) ?_
      split_ifs with e
      · simpa [Cpu.Owns] using hout
      · exact fun hd => h.not_has hhas d e hd.has
  case h_6 l hpc =>
    have hp : ∀ e, (s.cpu c).pc ≠ .panic e := by simp [hpc]
    have hout := hx.outside l (.inr (by rw [hpc]; rfl))
    have hhas : (s.cpu c).Has l := by simp [Cpu.Has, Pc.takes, hpc]
    have hn := hx.ncli hp
    rw [hpc] at hn
    have hm := hx.masked hp (by rw [hpc]; exact Nat.succ_pos _)
    cases hs
    rw [Cpu.popcli_eq hm.1 hm.2.2]
    refine h.set (.of_ne_panic (by simp) hx.frames hx.nodup (by simp [Pc.takes]) ?_ hm.flags)
      (fun j hj => by simp [Cpu.Has, Pc.takes, hpc, Ne.symm hj]) (by simp [Cpu.Owns, hpc])
      (iff_of_false (by simp) ?_) (fun hl => absurd hl (by simpa [Cpu.Has, Pc.takes] using hout))
      (howner l (by simp [Cpu.Owns, hpc]))
    · simp only [Pc.depth] at hn ⊢
      omega
    · rintro (hl | ⟨d, hd, hl⟩)
      · exact hout (by simpa [Cpu.Has, Pc.takes] using hl)
      · exact h.not_has hhas d hd hl
  case h_7 | h_8 => cases hs

theorem step {l : Label P ι} (h : Inv s) (hs : s.step l = some t) : Inv t := by
  cases l with
  | call c e =>
    obtain ⟨y, hy, rfl⟩ := Option.map_eq_some_iff.mp hs
    obtain ⟨hsane, hheld, hpc, hnew⟩ := (h.sane c).call hy
    refine h.setCpu (fun l => ?_) (fun l => ?_) hsane
    all_goals rcases hnew with hnew | ⟨l, a, hnew⟩ <;> simp [Cpu.Has, Cpu.Owns, Pc.takes, hheld, hpc, hnew]
  | go c => exact h.go hs

end Inv

theorem spinlock_contract {P ι : Type*} [DecidableEq P] [DecidableEq ι] {s : State P ι} (h : (machine P ι).Reachable s) :
    (∀ c d l, l ∈ (s.cpu c).held → l ∈ (s.cpu d).held → c = d) ∧
    (∀ c l, (s.cpu c).pc = .run → ((s.lock l).locked = true ∧ (s.lock l).cpu = some c ↔ l ∈ (s.cpu c).held)) ∧
    (∀ c, (s.cpu c).ie = true → (s.cpu c).pc = .run ∧ (s.cpu c).held = []) ∧
    (∀ c, (s.cpu c).pc = .run → (s.cpu c).ncli = (s.cpu c).held.length + (s.cpu c).pushed ∧ ((s.cpu c).ncli = 0 → (s.cpu c).ie = (s.cpu c).outer)) ∧
    (∀ c l, (s.cpu c).pc = .xchg l → l ∉ (s.cpu c).held) ∧
    ∀ c e, (s.cpu c).pc = .panic e → ∃ l, e = .acquire l ∧ l ∈ (s.cpu c).held ∨ e = .release l ∧ l ∉ (s.cpu c).held := by
  have hi : Inv s := by
    refine h.invariant (fun s hs => ?_) (fun s l t hi hs => hi.step hs)
    obtain ⟨hl, hc⟩ := hs
    refine ⟨fun l => ?_, fun c d l => ?_, fun c l => ?_, fun c => ?_⟩
    · simp [hl, hc, Cpu.Has, Pc.takes]
    · simp [hc, Cpu.Has, Pc.takes]
    · simp [hl, hc, Cpu.Owns]
    · rw [hc]
      constructor <;> simp [Pc.takes, Pc.depth]
  refine ⟨fun c d l hc hd => hi.one c d l (.inl hc) (.inl hd), fun c l hpc => ?_, fun c hc => ((hi.sane c).run_of_ie hc).imp_right And.left, fun c hpc => ?_,
    fun c l hpc => (hi.sane c).outside l (.inl hpc), fun c e he => ((hi.sane c).panic e he).2⟩
  · have howns : (s.cpu c).Owns l ↔ l ∈ (s.cpu c).held := by simp [Cpu.Owns, hpc]
    rw [hi.owner, howns]
    exact and_iff_right_of_imp (fun hl => (hi.word l).mpr ⟨c, .inl hl⟩)
  · have hp : ∀ e, (s.cpu c).pc ≠ .panic e := by simp [hpc]
    refine ⟨by simpa [hpc, Pc.depth] using (hi.sane c).ncli hp, fun hz => ?_⟩
    have hf := (hi.sane c).flags hp
    rwa [if_pos hz] at hf

theorem spinlock_contract_spin : ∃ s : State (Fin 2) Bool, (s.cpu 0).held = [true] ∧ (s.cpu 1).pc = .xchg true ∧ true ∉ (s.cpu 1).held := by
  obtain ⟨s, hs, h⟩ := Machine.exists_reachable (M := machine (Fin 2) Bool) (s := ⟨fun _ => {}, fun _ => {}⟩)
    (w := [.call 0 (.acquire true), .go 0, .go 0, .go 0, .call 1 (.acquire true), .go 1, .go 1])
    (P := fun s => (s.cpu 0).held = [true] ∧ (s.cpu 1).pc = .xchg true) ⟨fun _ => rfl, fun _ => rfl⟩ (by decide)
  simp only [decide_eq_true_eq] at h
  exact ⟨s, h.1, h.2, (spinlock_contract hs).2.2.2.2.1 1 true h.2⟩

end EnhancedXv6.LockWords
