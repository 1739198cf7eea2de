
import Mathlib.Data.List.Basic
import Mathlib.Data.List.Iterate
import Mathlib.Data.List.Nodup

namespace Circular

open Function (update update_of_ne update_self)

variable {α : Type*}

structure Links (α : Type*) where
  next : α → α
  prev : α → α

namespace Links

def flip (L : Links α) : Links α := ⟨L.prev, L.next⟩

section

variable [DecidableEq α]

def setNext (L : Links α) (a b : α) : Links α := { L with next := Function.update L.next a b }

def setPrev (L : Links α) (a b : α) : Links α := { L with prev := Function.update L.prev a b }

def init (L : Links α) (h : α) : Links α := (L.setPrev h h).setNext h h

def insertAfter (L : Links α) (h b : α) : Links α :=
  let L := L.setNext b (L.next h)
  let L := L.setPrev b h
  let L := L.setPrev (L.next h) b
  L.setNext h b

def unlink (L : Links α) (b : α) : Links α :=
  let L := L.setPrev (L.next b) (L.prev b)
  L.setNext (L.prev b) (L.next b)

def scan (step : α → α) (stop : α) (test : α → Bool) : ℕ → α → Option (Option α)
  | 0, _ => none
  | fuel + 1, b => if b = stop then some none else if test b then some (some b) else scan step stop test fuel (step b)

end

def Seg (L : Links α) : α → List α → α → Prop
  | a, [], c => L.next a = c ∧ L.prev c = a
  | a, x :: xs, c => (L.next a = x ∧ L.prev x = a) ∧ L.Seg x xs c

namespace Seg

variable {L M : Links α} {a b c : α} {xs ys : List α}

theorem append_iff : L.Seg a (xs ++ b :: ys) c ↔ L.Seg a xs b ∧ L.Seg b ys c := by
  induction xs generalizing a with
  | nil => rfl
  | cons x xs ih =>
    rw [List.cons_append, Seg, Seg, ih]
    exact and_assoc.symm

theorem flip (h : L.Seg a xs c) : L.flip.Seg c xs.reverse a := by
  induction xs generalizing a with
  | nil => exact ⟨h.2, h.1⟩
  | cons x xs ih =>
    rw [List.reverse_cons]
    exact append_iff.mpr ⟨ih h.2, h.1.2, h.1.1⟩

theorem prev_mem (h : L.Seg a xs c) : L.prev c ∈ a :: xs := by
  induction xs generalizing a with
  | nil => simp [h.2]
  | cons x xs ih => exact List.mem_cons_of_mem _ (ih h.2)

theorem congr (h : L.Seg a xs c) (hn : ∀ x ∈ a :: xs, M.next x = L.next x) (hp : ∀ x ∈ xs ++ [c], M.prev x = L.prev x) :
    M.Seg a xs c := by
  induction xs generalizing a with
  | nil => exact ⟨(hn a (by simp)).trans h.1, (hp c (by simp)).trans h.2⟩
  | cons x xs ih =>
    refine ⟨⟨(hn a (by simp)).trans h.1.1, (hp x (by simp)).trans h.1.2⟩, ih h.2 (fun y hy => hn y ?_) (fun y hy => hp y ?_)⟩
    · exact List.mem_cons_of_mem _ hy
    · exact List.mem_cons_of_mem _ hy

theorem retarget (h : L.Seg a xs b) (hnd : (a :: xs).Nodup) (hn : ∀ x ∈ a :: xs, x ≠ L.prev b → M.next x = L.next x)
    (hp : ∀ x ∈ xs, M.prev x = L.prev x) (hc : M.next (L.prev b) = c) (hc' : M.prev c = L.prev b) : M.Seg a xs c := by
  induction xs generalizing a with
  | nil =>
    rw [h.2] at hc hc'
    exact ⟨hc, hc'⟩
  | cons x xs ih =>
    obtain ⟨ha, hxs⟩ := List.nodup_cons.mp hnd
    have hne : a ≠ L.prev b := fun e => ha (e ▸ prev_mem h.2)
    refine ⟨⟨(hn a (by simp) hne).trans h.1.1, (hp x (by simp)).trans h.1.2⟩, ih h.2 hxs (fun y hy => hn y ?_) (fun y hy => hp y ?_)⟩
    · exact List.mem_cons_of_mem _ hy
    · exact List.mem_cons_of_mem _ hy

theorem iterate_next (h : L.Seg a xs c) : List.iterate L.next (L.next a) xs.length = xs ∧ L.next^[xs.length + 1] a = c := by
  induction xs generalizing a with
  | nil => exact ⟨rfl, h.1⟩
  | cons x xs ih =>
    obtain ⟨h1, h2⟩ := ih h.2
    constructor
    · rw [List.length_cons, List.iterate, h.1.1, h1]
    · rw [List.length_cons, Function.iterate_succ_apply, h.1.1]
      exact h2

theorem prev_next (h : L.Seg a xs c) : ∀ x ∈ a :: xs, L.prev (L.next x) = x := by
  induction xs generalizing a with
  | nil =>
    intro x hx
    obtain rfl := List.mem_singleton.mp hx
    rw [h.1, h.2]
  | cons y ys ih =>
    intro x hx
    rcases List.mem_cons.mp hx with rfl | hx
    · rw [h.1.1, h.1.2]
    · exact ih h.2 x hx

theorem scan_next [DecidableEq α] (test : α → Bool) (h : L.Seg a xs c) (hc : c ∉ xs) {fuel : ℕ} (hf : xs.length < fuel) :
    scan L.next c test fuel (L.next a) = some (xs.find? test) := by
  induction xs generalizing a fuel with
  | nil =>
    obtain ⟨k, rfl⟩ := Nat.exists_eq_succ_of_ne_zero (Nat.ne_of_gt hf)
    rw [h.1, scan, if_pos rfl]
    rfl
  | cons x xs ih =>
    obtain ⟨k, rfl⟩ := Nat.exists_eq_succ_of_ne_zero (Nat.ne_of_gt (Nat.zero_lt_of_lt hf))
    obtain ⟨hx, hxs⟩ := not_or.mp (mt List.mem_cons.mpr hc)
    rw [h.1.1, scan, if_neg (Ne.symm hx), List.find?_cons]
    cases test x with
    | true => rfl
    | false => exact ih h.2 hxs (Nat.lt_of_succ_lt_succ hf)

end Seg

structure Repr (L : Links α) (h : α) (xs : List α) : Prop where
  nodup : (h :: xs).Nodup
  seg : L.Seg h xs h

namespace Repr

variable {L : Links α} {h b : α} {xs ys : List α} {fuel : ℕ}

theorem prev_next (r : L.Repr h xs) {a : α} (ha : a ∈ h :: xs) : L.prev (L.next a) = a := r.seg.prev_next a ha

theorem next_prev (r : L.Repr h xs) {a : α} (ha : a ∈ h :: xs) : L.next (L.prev a) = a := by
  apply r.seg.flip.prev_next a
  simpa using ha

variable [DecidableEq α]

theorem scan_next (r : L.Repr h xs) (test : α → Bool) (hf : xs.length < fuel) :
    scan L.next h test fuel (L.next h) = some (xs.find? test) :=
  r.seg.scan_next test (List.nodup_cons.mp r.nodup).1 hf

theorem scan_prev (r : L.Repr h xs) (test : α → Bool) (hf : xs.length < fuel) :
    scan L.prev h test fuel (L.prev h) = some (xs.reverse.find? test) :=
  r.seg.flip.scan_next test (by simpa using (List.nodup_cons.mp r.nodup).1) (by simpa using hf)

theorem init (L : Links α) (h : α) : (L.init h).Repr h [] :=
  ⟨List.nodup_singleton h, by simp [Links.init, setNext], by simp [Links.init, setNext, setPrev]⟩

theorem insertAfter (r : L.Repr h xs) (hb : b ∉ h :: xs) : (L.insertAfter h b).Repr h (b :: xs) := by
  obtain ⟨hne, hbx⟩ := not_or.mp (mt List.mem_cons.mpr hb)
  obtain ⟨hh, hxs⟩ := List.nodup_cons.mp r.nodup
  refine ⟨?_, ?_⟩
  · rw [List.nodup_cons, List.mem_cons, List.nodup_cons]
    exact ⟨by rintro (e | e); exacts [hne e.symm, hh e], hbx, hxs⟩
  have hnext : (L.insertAfter h b).next = update (update L.next b (L.next h)) h b := by
    simp [Links.insertAfter, setNext, setPrev]
  have hprev : (L.insertAfter h b).prev = update (update L.prev b h) (L.next h) b := by
    simp [Links.insertAfter, setNext, setPrev, update_of_ne (Ne.symm hne)]
  have hs := r.seg
  cases xs with
  | nil =>
    obtain ⟨h1, h2⟩ := hs
    refine ⟨⟨?_, ?_⟩, ?_, ?_⟩
    · rw [hnext, update_self]
    · rw [hprev, h1, update_of_ne hne, update_self]
    · rw [hnext, update_of_ne hne, update_self, h1]
    · rw [hprev, h1, update_self]
  | cons x xs =>
    obtain ⟨⟨h1, h2⟩, h3⟩ := hs
    have hxb : x ≠ b := fun e => hbx (e ▸ List.mem_cons_self)
    refine ⟨⟨?_, ?_⟩, ⟨?_, ?_⟩, h3.congr ?_ ?_⟩
    · rw [hnext, update_self]
    · rw [hprev, h1, update_of_ne (Ne.symm hxb), update_self]
    · rw [hnext, update_of_ne hne, update_self, h1]
    · rw [hprev, h1, update_self]
    · intro y hy
      have hyh : y ≠ h := fun e => hh (e ▸ hy)
      have hyb : y ≠ b := fun e => hbx (e ▸ hy)
      rw [hnext, update_of_ne hyh, update_of_ne hyb]
    · intro y hy
      have hyb : y ≠ b ∧ y ≠ x := by
        rcases List.mem_append.mp hy with hy | hy
        · exact ⟨fun e => hbx (e ▸ List.mem_cons_of_mem _ hy), fun e => (List.nodup_cons.mp hxs).1 (e ▸ hy)⟩
        · obtain rfl := List.mem_singleton.mp hy
          exact ⟨Ne.symm hne, fun e => hh (e ▸ List.mem_cons_self)⟩
      rw [hprev, h1, update_of_ne hyb.2, update_of_ne hyb.1]

theorem unlink (r : L.Repr h (xs ++ b :: ys)) : (L.unlink b).Repr h (xs ++ ys) := by
  obtain ⟨hs1, hs2⟩ := Seg.append_iff.mp r.seg
  have hnd := r.nodup
  rw [← List.cons_append, List.nodup_append] at hnd
  obtain ⟨hx, hy, hxy⟩ := hnd
  have hmem := hs1.prev_mem
  have hbx : b ∉ h :: xs := fun e => hxy b e b List.mem_cons_self rfl
  have hprev : (L.unlink b).prev = update L.prev (L.next b) (L.prev b) := rfl
  have hpb : (L.unlink b).next = update L.next (update L.prev (L.next b) (L.prev b) b) (L.next b) := rfl
  have hnext : (L.unlink b).next = update L.next (L.prev b) (L.next b) := by
    rw [hpb]
    by_cases e : b = L.next b
    · rw [← e, update_self]
    · rw [update_of_ne e]
  have hfirst : (∀ y ∈ xs, y ≠ L.next b) → (L.unlink b).Seg h xs (L.next b) := by
    intro hc
    refine hs1.retarget hx (fun y hy hyp => ?_) (fun y hy => ?_) ?_ ?_
    · rw [hnext, update_of_ne hyp]
    · rw [hprev, update_of_ne (hc y hy)]
    · rw [hnext, update_self]
    · rw [hprev, update_self]
  cases ys with
  | nil =>
    rw [List.append_nil]
    refine ⟨hx, ?_⟩
    have hc : L.next b = h := hs2.1
    rw [hc] at hfirst
    exact hfirst (fun y hy e => (List.nodup_cons.mp hx).1 (e ▸ hy))
  | cons y ys =>
    obtain ⟨⟨h1, h2⟩, h3⟩ := hs2
    obtain ⟨hby, hys⟩ := List.nodup_cons.mp hy
    have hout : ∀ z ∈ h :: xs, z ∉ y :: ys := fun z hz hzy => hxy z hz z (List.mem_cons_of_mem _ hzy) rfl
    refine ⟨?_, Seg.append_iff.mpr ⟨?_, h3.congr ?_ ?_⟩⟩
    · rw [← List.cons_append, List.nodup_append]
      exact ⟨hx, hys, fun z hz w hw e => hout z hz (e ▸ hw)⟩
    · rw [h1] at hfirst
      exact hfirst (fun z hz e => hout z (List.mem_cons_of_mem _ hz) (e ▸ List.mem_cons_self))
    · intro z hz
      have hzb : z ≠ L.prev b := by
        rintro rfl
        exact hout _ hmem hz
      rw [hnext, update_of_ne hzb]
    · intro z hz
      rw [hprev, h1, update_of_ne]
      rintro rfl
      rcases List.mem_append.mp hz with hz | hz
      · exact (List.nodup_cons.mp hys).1 hz
      · exact hout h List.mem_cons_self (List.mem_singleton.mp hz ▸ List.mem_cons_self)

theorem moveToFront (r : L.Repr h (xs ++ b :: ys)) : ((L.unlink b).insertAfter h b).Repr h (b :: (xs ++ ys)) := by
  apply r.unlink.insertAfter
  have hnd : (b :: (h :: xs ++ ys)).Nodup := List.nodup_middle.mp r.nodup
  exact (List.nodup_cons.mp hnd).1

end Repr

end Links

end Circular
