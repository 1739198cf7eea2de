import Mathlib.Data.List.Basic
import Mathlib.Data.List.Nodup
import Mathlib.Data.List.Range
import Mathlib.Data.Nat.ModEq
import Mathlib.Logic.Function.Basic

namespace LinkedQueue

variable {α : Type*}

structure Queue (α : Type*) where
  head : Option α := none
  next : α → Option α := fun _ => none

namespace Queue

def get (q : Queue α) : Option α → Option α
  | none => q.head
  | some x => q.next x

def walk (q : Queue α) : ℕ → Option α → Option (Option α)
  | 0, _ => none
  | fuel + 1, cell =>
    match q.get cell with
    | none => some cell
    | some x => q.walk fuel (some x)

def Chain (next : α → Option α) : Option α → List α → Prop
  | o, [] => o = none
  | o, x :: xs => o = some x ∧ Chain next (next x) xs

def Holds (q : Queue α) (xs : List α) : Prop := Chain q.next q.head xs

theorem Chain.congr {f g : α → Option α} {o : Option α} {xs : List α} (h : Chain f o xs) (he : ∀ x ∈ xs, g x = f x) :
    Chain g o xs := by
  induction xs generalizing o with
  | nil => exact h
  | cons x xs ih =>
    refine ⟨h.1, ?_⟩
    rw [he x List.mem_cons_self]
    exact ih h.2 (fun y hy => he y (List.mem_cons_of_mem _ hy))

section

variable [DecidableEq α]

def setNext (q : Queue α) (x : α) (o : Option α) : Queue α := { q with next := Function.update q.next x o }

def set (q : Queue α) (cell o : Option α) : Queue α :=
  match cell with
  | none => { q with head := o }
  | some x => q.setNext x o

def append (fuel : ℕ) (q : Queue α) (b : α) : Option (Queue α) :=
  let q := q.setNext b none
  (q.walk fuel none).map (fun cell => q.set cell (some b))

theorem walk_spec {q : Queue α} {xs : List α} {b : α} {cell : Option α} {fuel : ℕ} (h : Chain q.next (q.get cell) xs)
    (hb : q.next b = none) (hnd : xs.Nodup) (hbx : b ∉ xs) (hc : ∀ x, cell = some x → x ∉ xs ∧ x ≠ b) (hf : xs.length < fuel) :
    ∃ c, q.walk fuel cell = some c ∧ Chain (q.set c (some b)).next ((q.set c (some b)).get cell) (xs ++ [b]) ∧
      ∀ x, x ∉ xs → cell ≠ some x → (q.set c (some b)).next x = q.next x := by
  induction xs generalizing cell fuel with
  | nil =>
    obtain ⟨k, rfl⟩ := Nat.exists_eq_succ_of_ne_zero (Nat.ne_of_gt hf)
    have h0 : q.get cell = none := h
    refine ⟨cell, by rw [walk, h0], ?_, ?_⟩
    · cases cell with
      | none => exact ⟨rfl, hb⟩
      | some x => exact ⟨Function.update_self _ _ _, (Function.update_of_ne (Ne.symm (hc x rfl).2) _ _).trans hb⟩
    · intro x _ hx
      cases cell with
      | none => rfl
      | some y =>
        have hxy : x ≠ y := by
          rintro rfl
          exact hx rfl
        exact Function.update_of_ne hxy _ _
  | cons y ys ih =>
    obtain ⟨k, rfl⟩ := Nat.exists_eq_succ_of_ne_zero (Nat.ne_of_gt (Nat.zero_lt_of_lt hf))
    obtain ⟨hy, hys⟩ := List.nodup_cons.mp hnd
    obtain ⟨hby, hbys⟩ := not_or.mp (mt List.mem_cons.mpr hbx)
    have hfirst : ∀ x, some y = some x → x ∉ ys ∧ x ≠ b := by
      rintro x ⟨⟩
      exact ⟨hy, Ne.symm hby⟩
    have hnext : Chain q.next (q.get (some y)) ys := h.2
    obtain ⟨c, hw, hch, hrest⟩ := ih hnext hys hbys hfirst (Nat.lt_of_succ_lt_succ hf)
    have hcell : (q.set c (some b)).get cell = some y := by
      cases cell with
      | none =>
        cases c with
        | none =>
          -- the walk has passed the cell of the queue
          have hne : ∀ fuel (x : α), q.walk fuel (some x) ≠ some none := by
            intro fuel
            induction fuel with
            | zero => exact fun x => nofun
            | succ k ih =>
              intro x
              rw [walk]
              cases q.get (some x) with
              | none => exact nofun
              | some z => exact ih z
          exact absurd hw (hne k y)
        | some z => exact h.1
      | some x =>
        obtain ⟨hx, -⟩ := hc x rfl
        obtain ⟨hxy, hxs⟩ := not_or.mp (mt List.mem_cons.mpr hx)
        exact (hrest x hxs (fun e => hxy (Option.some.inj e).symm)).trans h.1
    refine ⟨c, by rw [walk, h.1]; exact hw, ⟨hcell, hch⟩, ?_⟩
    intro x hx _
    obtain ⟨hxy, hxs⟩ := not_or.mp (mt List.mem_cons.mpr hx)
    exact hrest x hxs (fun e => hxy (Option.some.inj e).symm)

theorem Holds.append {q : Queue α} {xs : List α} {b : α} {fuel : ℕ} (h : q.Holds xs) (hnd : xs.Nodup) (hb : b ∉ xs)
    (hf : xs.length < fuel) : ∃ q', q.append fuel b = some q' ∧ q'.Holds (xs ++ [b]) := by
  have hc : Chain (q.setNext b none).next ((q.setNext b none).get none) xs :=
    Chain.congr h (fun x hx => Function.update_of_ne (by rintro rfl; exact hb hx) _ _)
  obtain ⟨c, hw, hch, -⟩ := walk_spec (b := b) hc (Function.update_self _ _ _) hnd hb nofun hf
  exact ⟨_, by rw [Queue.append, hw]; rfl, hch⟩

end

theorem Holds.head_eq {q : Queue α} {xs : List α} (h : q.Holds xs) : q.head = xs.head? := by
  cases xs with
  | nil => exact h
  | cons x xs => exact h.1

theorem Holds.tail {q : Queue α} {x : α} {xs : List α} (h : q.Holds (x :: xs)) : { q with head := q.next x }.Holds xs := h.2

end Queue

end LinkedQueue

namespace EnhancedXv6.Ring

variable {α : Type*} {N : ℕ} [NeZero N]

def view (data : Fin N → α) (start count : ℕ) : List α :=
  (List.range count).map (fun i => data (Fin.ofNat N (start + i)))

@[simp] theorem view_zero (data : Fin N → α) (start : ℕ) : view data start 0 = [] := rfl

@[simp] theorem view_length (data : Fin N → α) (start count : ℕ) : (view data start count).length = count := by
  simp [view]

theorem ofNat_eq_iff {a b : ℕ} : Fin.ofNat N a = Fin.ofNat N b ↔ a ≡ b [MOD N] := Fin.ext_iff

theorem view_congr (data : Fin N → α) {a b : ℕ} (h : a ≡ b [MOD N]) (count : ℕ) : view data a count = view data b count := by
  unfold view
  apply List.map_congr_left
  intro i _
  rw [ofNat_eq_iff.mpr (h.add_right i)]

theorem view_succ (data : Fin N → α) (start count : ℕ) :
    view data start (count + 1) = view data start count ++ [data (Fin.ofNat N (start + count))] := by
  unfold view
  rw [List.range_succ, List.map_append, List.map_singleton]

theorem view_add (data : Fin N → α) (start a b : ℕ) : view data start (a + b) = view data start a ++ view data (start + a) b := by
  unfold view
  rw [List.range_add, List.map_append, List.map_map]
  congr 1
  apply List.map_congr_left
  intro i _
  rw [Function.comp_apply, Nat.add_assoc]

theorem view_cons (data : Fin N → α) (start count : ℕ) :
    view data start (count + 1) = data (Fin.ofNat N start) :: view data (start + 1) count := by
  unfold view
  rw [List.range_succ_eq_map, List.map_cons, List.map_map, Nat.add_zero]
  congr 1
  apply List.map_congr_left
  intro i _
  rw [Function.comp_apply, Nat.succ_eq_add_one]
  congr 2
  omega

theorem ofNat_ne_of_lt {start count i : ℕ} (hi : i < count) (h : count < N) :
    Fin.ofNat N (start + i) ≠ Fin.ofNat N (start + count) := by
  intro he
  have hm := (ofNat_eq_iff.mp he).add_left_cancel' start
  rw [Nat.ModEq, Nat.mod_eq_of_lt (hi.trans h), Nat.mod_eq_of_lt h] at hm
  omega

theorem view_push (data : Fin N → α) (start : ℕ) {count : ℕ} (h : count < N) (a : α) :
    view (Function.update data (Fin.ofNat N (start + count)) a) start (count + 1) = view data start count ++ [a] := by
  rw [view_succ, Function.update_self]
  congr 1
  unfold view
  apply List.map_congr_left
  intro i hi
  rw [Function.update_of_ne (ofNat_ne_of_lt (List.mem_range.mp hi) h)]

end EnhancedXv6.Ring
