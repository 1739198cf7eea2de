
import EnhancedXv6.TableSpecs
import Mathlib.Data.Fintype.Card

namespace EnhancedXv6.ProcTable

open Function (update update_apply update_of_ne update_self)
open Table

def Distinct (t : Table) : Prop := ∀ p r, t.st p ≠ .unused → (t.proc p).pid = (t.proc r).pid → p = r

theorem Distinct.wakes {t u : Table} (h : Distinct t) (hw : Wakes t u) : Distinct u := by
  intro p r hp he
  rw [hw.pid, hw.pid] at he
  exact h p r (mt (hw.unused p).mpr hp) he

structure Holds (t : Table) (q : ℕ) (Q : List Slot) : Prop where
  last : t.qLatestIdx q + 1 = Q.length
  ptr : ∀ i < Q.length, t.queuePtr q i = Q[i]?

def pidsOf (t : Table) (Q : List Slot) : List ℤ := Q.map (fun r => (t.proc r).pid)

section Counts

variable {t : Table} {p : Slot} {q : ℕ}

theorem pushed (hfree : ¬ (List.range (t.qLatestIdx q).toNat).any (fun i => t.pidAt q i = some (t.proc p).pid)) :
    (t.pushBackProcess p q).1.proc = update t.proc p { t.proc p with currQueueId := q } ∧
      (t.pushBackProcess p q).1.refused = t.refused ∧ (t.pushBackProcess p q).1.dropped = t.dropped := by
  unfold pushBackProcess
  rw [if_neg hfree]
  exact ⟨rfl, rfl, rfl⟩

theorem deleted (t : Table) (p : Slot) (q : ℕ) :
    (t.deleteProcess p q).1.refused = t.refused ∧ (t.deleteProcess p q).1.dropped = t.dropped := by
  unfold deleteProcess
  split <;> exact ⟨rfl, rfl⟩

end Counts

namespace Holds

variable {t u : Table} {p : Slot} {q r i pos : ℕ} {Q : List Slot}

theorem congr (h : Holds t q Q) (hptr : u.queuePtr q = t.queuePtr q) (hlast : u.qLatestIdx q = t.qLatestIdx q) : Holds u q Q := by
  constructor
  · rw [hlast]
    exact h.last
  · rw [hptr]
    exact h.ptr

theorem pidAt (h : Holds t q Q) (hi : i < Q.length) : t.pidAt q i = (pidsOf t Q)[i]? := by
  rw [Table.pidAt, h.ptr i hi, pidsOf, List.getElem?_map]

theorem push (h : Holds t q Q) (hfree : ¬ (List.range (t.qLatestIdx q).toNat).any (fun i => t.pidAt q i = some (t.proc p).pid)) :
    Holds (t.pushBackProcess p q).1 q (Q ++ [p]) ∧ (t.pushBackProcess p q).2 = 1 := by
  have hl := h.last
  unfold pushBackProcess
  rw [if_neg hfree]
  refine ⟨⟨?_, fun i hi => ?_⟩, rfl⟩
  · simp only [setProc_qLatestIdx, update_self, List.length_append, List.length_singleton]
    omega
  · simp only [setProc_queuePtr, update_self, List.length_append, List.length_singleton] at hi ⊢
    by_cases he : i = Q.length
    · rw [show (t.qLatestIdx q + 1).toNat = i by omega, update_self, he, List.getElem?_concat_length]
    · rw [update_of_ne (by omega), h.ptr i (by omega), List.getElem?_append_left (by omega)]

theorem push_other (h : Holds t r Q) (hr : r ≠ q) : Holds (t.pushBackProcess p q).1 r Q := by
  unfold pushBackProcess
  split
  · exact h.congr rfl rfl
  · exact h.congr (update_of_ne hr ..) (update_of_ne hr ..)

theorem delete (h : Holds t q Q)
    (hfind : (List.range (t.qLatestIdx q + 1).toNat).find? (fun i => t.pidAt q i = some (t.proc p).pid) = some pos) :
    Holds (t.deleteProcess p q).1 q (Q.eraseIdx pos) ∧ (t.deleteProcess p q).2 = 1 := by
  have hl := h.last
  have hpos : pos < Q.length := by
    have hm := List.mem_range.mp (List.mem_of_find?_eq_some hfind)
    omega
  have hlen : (Q.eraseIdx pos).length = Q.length - 1 := List.length_eraseIdx_of_lt hpos
  unfold deleteProcess
  rw [hfind]
  refine ⟨⟨?_, fun i hi => ?_⟩, rfl⟩
  · simp only [update_self]
    omega
  · simp only [update_self]
    rw [if_neg (by omega), List.getElem?_eraseIdx]
    split_ifs with h1 h2 h2
    · omega
    · exact h.ptr (i + 1) (by omega)
    · exact h.ptr i (by omega)
    · omega

theorem delete_other (h : Holds t r Q) (hr : r ≠ q) : Holds (t.deleteProcess p q).1 r Q := by
  unfold deleteProcess
  split
  · exact h
  · exact h.congr (update_of_ne hr ..) (update_of_ne hr ..)

end Holds

structure Queued (t : Table) (W : Slot → Prop) (Q : ℕ → List Slot) : Prop where
  last : ∀ q < 5, t.qLatestIdx q + 1 = (Q q).length
  ptr : ∀ q < 5, ∀ i < (Q q).length, t.queuePtr q i = (Q q)[i]?
  mem : ∀ q < 5, ∀ p, p ∈ Q q ↔ W p ∧ (t.proc p).currQueueId = q
  nodup : ∀ q < 5, (Q q).Nodup
  level : ∀ p, (t.proc p).currQueueId < 5
  used : ∀ p, W p → t.st p ≠ .unused
  pids : Distinct t
  refused : t.refused = 0
  dropped : t.dropped = 0

namespace Queued

variable {t u : Table} {W V : Slot → Prop} {Q : ℕ → List Slot} {q : ℕ} {p : Slot}

theorem congr (h : Queued t W Q) (hptr : u.queuePtr = t.queuePtr) (hlast : u.qLatestIdx = t.qLatestIdx)
    (hrefused : u.refused = t.refused) (hdropped : u.dropped = t.dropped) (hW : ∀ p, V p ↔ W p)
    (hid : ∀ p, W p → (u.proc p).currQueueId = (t.proc p).currQueueId) (hlevel : ∀ p, (u.proc p).currQueueId < 5)
    (hused : ∀ p, V p → u.st p ≠ .unused) (hpids : Distinct u) : Queued u V Q where
  last q hq := by rw [hlast]; exact h.last q hq
  ptr q hq := by rw [hptr]; exact h.ptr q hq
  mem q hq p := by
    rw [h.mem q hq, hW]
    exact and_congr_right (fun hp => by rw [hid p hp])
  nodup := h.nodup
  level := hlevel
  used := hused
  pids := hpids
  refused := hrefused.trans h.refused
  dropped := hdropped.trans h.dropped

theorem holds (h : Queued t W Q) (hq : q < 5) : Holds t q (Q q) := ⟨h.last q hq, h.ptr q hq⟩

theorem holds_update {l : List Slot} (hself : Holds u q l) (hother : ∀ r < 5, r ≠ q → Holds u r (Q r)) :
    ∀ r < 5, Holds u r (update Q q l r) := by
  intro r hr
  by_cases e : r = q
  · rw [e, update_self]
    exact hself
  · rw [update_of_ne e]
    exact hother r hr e

theorem ptr_mem (h : Queued t W Q) {i : ℕ} (hq : q < 5) (hi : i < (Q q).length)
    (hp : t.queuePtr q i = some p) : W p ∧ (t.proc p).currQueueId = q := by
  rw [h.ptr q hq i hi] at hp
  exact (h.mem q hq p).mp (List.mem_of_getElem? hp)

theorem pidAt_eq (h : Queued t W Q) {i : ℕ} (hq : q < 5) (hi : i < (Q q).length)
    (hp : t.pidAt q i = some (t.proc p).pid) : (Q q)[i]? = some p := by
  obtain ⟨r, hr, hpid⟩ := Option.map_eq_some_iff.mp hp
  have hW := h.ptr_mem hq hi hr
  rw [← h.pids r p (h.used r hW.1) hpid, ← h.ptr q hq i hi]
  exact hr

theorem push (h : Queued t W Q) (hp : ¬ W p) (hq : q < 5) (hu : t.st p ≠ .unused) :
    Queued (t.pushBackProcess p q).1 (fun r => W r ∨ r = p) (update Q q (Q q ++ [p])) ∧
      (t.pushBackProcess p q).2 = 1 := by
  have hnot : ∀ q < 5, p ∉ Q q := fun q hq hm => hp ((h.mem q hq p).mp hm).1
  have hlast := h.last q hq
  have hfree : ¬ ((List.range (t.qLatestIdx q).toNat).any (fun i => t.pidAt q i = some (t.proc p).pid)) := by
    simp only [List.any_eq_true, List.mem_range, decide_eq_true_eq, not_exists, not_and]
    intro i hi he
    exact hnot q hq (List.mem_of_getElem? (h.pidAt_eq hq (by omega) he))
  have hw := pushBackProcess_wakes t p q
  obtain ⟨hself, hret⟩ := (h.holds hq).push hfree
  have hholds := holds_update hself (fun r hr e => (h.holds hr).push_other e)
  obtain ⟨hproc, hrefused, hdropped⟩ := pushed hfree
  refine ⟨⟨fun r hr => (hholds r hr).last, fun r hr => (hholds r hr).ptr, fun r hr s => ?_, fun r hr => ?_, fun s => ?_, fun s hs => ?_,
    h.pids.wakes hw, hrefused.trans h.refused, hdropped.trans h.dropped⟩, hret⟩
  · rw [hproc]
    by_cases es : s = p
    · subst es
      simp only [update_self, or_true, true_and]
      by_cases e : r = q
      · subst e; simp
      · simp only [update_of_ne e]
        exact iff_of_false (hnot r hr) (fun e' => e e'.symm)
    · simp only [update_of_ne es, es, or_false]
      by_cases e : r = q
      · subst e; simpa [es] using h.mem r hr s
      · simpa [e] using h.mem r hr s
  · by_cases e : r = q
    · subst e
      simp only [update_self]
      exact List.Nodup.append (h.nodup r hr) (List.nodup_singleton p) (by simpa using hnot r hr)
    · simp only [update_of_ne e]; exact h.nodup r hr
  · rw [hproc, update_apply]
    split_ifs
    · exact hq
    · exact h.level s
  · rcases hs with hs | rfl
    · exact mt (hw.unused s).mp (h.used s hs)
    · exact mt (hw.unused s).mp hu

theorem delete_find (h : Queued t W Q) (hp : W p) (hq : q < 5)
    (hl : (t.proc p).currQueueId = q) :
    ∃ pos, (List.range (t.qLatestIdx q + 1).toNat).find? (fun i => t.pidAt q i = some (t.proc p).pid) = some pos ∧
      pos < (Q q).length ∧ (Q q)[pos]? = some p := by
  have hlast := h.last q hq
  obtain ⟨i, hi, he⟩ := List.mem_iff_getElem.mp ((h.mem q hq p).mpr ⟨hp, hl⟩)
  have hptr : t.queuePtr q i = some p := by rw [h.ptr q hq i hi, List.getElem?_eq_getElem hi, he]
  have hsome : ((List.range (t.qLatestIdx q + 1).toNat).find?
      (fun i => t.pidAt q i = some (t.proc p).pid)).isSome := by
    simp only [List.find?_isSome, List.mem_range, decide_eq_true_eq]
    exact ⟨i, by omega, by simp [pidAt, hptr]⟩
  obtain ⟨pos, hpos⟩ := Option.isSome_iff_exists.mp hsome
  have hlt : pos < (Q q).length := by
    have := List.mem_range.mp (List.mem_of_find?_eq_some hpos)
    omega
  exact ⟨pos, hpos, hlt, h.pidAt_eq hq hlt (by simpa using List.find?_some hpos)⟩

theorem delete (h : Queued t W Q) (hp : W p) (hl : (t.proc p).currQueueId = q) :
    Queued (t.deleteProcess p q).1 (fun r => W r ∧ r ≠ p) (update Q q ((Q q).erase p)) := by
  have hq : q < 5 := hl ▸ h.level p
  obtain ⟨pos, hfind, hlt, hpos⟩ := h.delete_find hp hq hl
  have hlast := h.last q hq
  have hproc := deleteProcess_proc t p q
  have hw := (Frame.deleteProcess t p q).wakes
  have herase : (Q q).erase p = (Q q).eraseIdx pos := by
    obtain ⟨hi, he⟩ := List.getElem?_eq_some_iff.mp hpos
    rw [← he]
    exact (h.nodup q hq).erase_getElem pos hi
  have hself : Holds (t.deleteProcess p q).1 q ((Q q).erase p) := by
    rw [herase]
    exact ((h.holds hq).delete hfind).1
  have hholds := holds_update hself (fun r hr e => (h.holds hr).delete_other e)
  refine ⟨fun r hr => (hholds r hr).last, fun r hr => (hholds r hr).ptr, fun r hr s => ?_, fun r hr => ?_, fun s => ?_,
    fun s hs => mt (hw.unused s).mp (h.used s hs.1), h.pids.wakes hw, (deleted t p q).1.trans h.refused, (deleted t p q).2.trans h.dropped⟩
  · rw [hproc]
    by_cases e : r = q
    · subst e
      rw [update_self, (h.nodup r hr).mem_erase_iff, h.mem r hr]
      tauto
    · rw [update_of_ne e, h.mem r hr]
      refine ⟨fun hs => ⟨⟨hs.1, ?_⟩, hs.2⟩, fun hs => ⟨hs.1.1, hs.2⟩⟩
      rintro rfl
      exact e (hs.2.symm.trans hl)
  · by_cases e : r = q
    · subst e; simp only [update_self]; exact (h.nodup r hr).erase p
    · simp only [update_of_ne e]; exact h.nodup r hr
  · rw [hproc]; exact h.level s

end Queued

section Duplicates

variable {t : Table} {p : Slot} {q : ℕ} {Q : List Slot}

theorem Holds.any_iff (h : Holds t q Q) :
    (List.range (t.qLatestIdx q).toNat).any (fun i => t.pidAt q i = some (t.proc p).pid) ↔
      ∃ i, i + 1 < Q.length ∧ (pidsOf t Q)[i]? = some (t.proc p).pid := by
  have hl := h.last
  simp only [List.any_eq_true, List.mem_range, decide_eq_true_eq]
  constructor
  · rintro ⟨i, hi, he⟩
    rw [h.pidAt (by omega)] at he
    exact ⟨i, by omega, he⟩
  · rintro ⟨i, hi, he⟩
    rw [← h.pidAt (by omega)] at he
    exact ⟨i, by omega, he⟩

theorem Holds.not_any (h : Holds t q Q) (hp : (t.proc p).pid ∉ pidsOf t Q) :
    ¬ (List.range (t.qLatestIdx q).toNat).any (fun i => t.pidAt q i = some (t.proc p).pid) := by
  rw [h.any_iff]
  rintro ⟨i, -, he⟩
  exact hp (List.mem_of_getElem? he)

theorem Holds.delete_mem (h : Holds t q Q) (hd : (pidsOf t Q).Nodup) (hp : p ∈ Q) :
    Holds (t.deleteProcess p q).1 q (Q.erase p) := by
  have hl := h.last
  obtain ⟨i, hi, rfl⟩ := List.mem_iff_getElem.mp hp
  have hpid : (pidsOf t Q)[i]? = some (t.proc Q[i]).pid := by
    rw [pidsOf, List.getElem?_map, List.getElem?_eq_getElem hi, Option.map_some]
  have hlen : (pidsOf t Q).length = Q.length := List.length_map ..
  have hfind : (List.range (t.qLatestIdx q + 1).toNat).find?
      (fun j => t.pidAt q j = some (t.proc Q[i]).pid) = some i := by
    rw [List.find?_range_eq_some]
    refine ⟨decide_eq_true ((h.pidAt hi).trans hpid), List.mem_range.mpr (by omega), fun j hj => ?_⟩
    rw [h.pidAt (by omega), Bool.not_eq_true', decide_eq_false_iff_not]
    intro he
    have hsame := (List.getElem?_inj (by omega) hd).mp (he.trans hpid.symm)
    omega
  rw [(List.Nodup.of_map _ hd).erase_getElem i hi]
  exact (h.delete hfind).1

theorem Holds.push_refused (h : Holds t q Q) (hp : (t.proc p).pid ∈ pidsOf t Q)
    (hlast : ∀ r, Q.getLast? = some r → (t.proc r).pid ≠ (t.proc p).pid) : t.pushBackProcess p q = ({ t with refused := t.refused + 1 }, -1) := by
  obtain ⟨i, hi⟩ := List.mem_iff_getElem?.mp hp
  obtain ⟨r, hr, hpid⟩ : ∃ r, Q[i]? = some r ∧ (t.proc r).pid = (t.proc p).pid := by
    rw [pidsOf, List.getElem?_map] at hi
    exact Option.map_eq_some_iff.mp hi
  have hlt : i < Q.length := (List.getElem?_eq_some_iff.mp hr).1
  have hne : i ≠ Q.length - 1 := by
    rintro rfl
    rw [← List.getLast?_eq_getElem?] at hr
    exact hlast r hr hpid
  exact if_pos (h.any_iff.mpr ⟨i, by omega, hi⟩)

theorem Holds.delete_last (h : Holds t q (Q ++ [p])) (hp : (t.proc p).pid ∉ pidsOf t Q) :
    Holds (t.deleteProcess p q).1 q Q ∧ (t.deleteProcess p q).2 = 1 := by
  have hl := h.last
  have hpids : pidsOf t (Q ++ [p]) = pidsOf t Q ++ [(t.proc p).pid] := List.map_append
  have hlen : (pidsOf t Q).length = Q.length := List.length_map ..
  rw [List.length_append, List.length_singleton] at hl
  have hfind : (List.range (t.qLatestIdx q + 1).toNat).find? (fun i => t.pidAt q i = some (t.proc p).pid) = some Q.length := by
    rw [List.find?_range_eq_some]
    refine ⟨?_, List.mem_range.mpr (by omega), fun j hj => ?_⟩
    · rw [h.pidAt (by simp), hpids, ← hlen, List.getElem?_concat_length]
      exact decide_eq_true rfl
    · rw [h.pidAt (by simp; omega), hpids, List.getElem?_append_left (by omega)]
      simp only [Bool.not_eq_true', decide_eq_false_iff_not]
      intro he
      exact hp (List.mem_of_getElem? he)
  have hdelete := h.delete hfind
  rwa [List.eraseIdx_append_of_length_le (le_refl _), Nat.sub_self, List.eraseIdx_cons_zero, List.append_nil] at hdelete

theorem Holds.push_delete (h : Holds t q Q) (hd : (pidsOf t Q).Nodup) (hp : (t.proc p).pid ∉ pidsOf t Q) :
    ∃ u v, t.pushBackProcess p q = (u, 1) ∧ Holds u q (Q ++ [p]) ∧ (pidsOf u (Q ++ [p])).Nodup ∧ (Q ++ [p]).length ≤ NPROC ∧
      u.deleteProcess p q = (v, 1) ∧ Holds v q Q ∧ v.qLatestIdx q = t.qLatestIdx q ∧
      ∀ r l, r ≠ q → Holds t r l → Holds u r l ∧ Holds v r l := by
  obtain ⟨hu, hret⟩ := h.push (h.not_any hp)
  have hpid : ∀ r, ((t.pushBackProcess p q).1.proc r).pid = (t.proc r).pid := (pushBackProcess_wakes t p q).pid
  have hpids : ∀ l, pidsOf (t.pushBackProcess p q).1 l = pidsOf t l := fun l => List.map_congr_left (fun r _ => hpid r)
  have hnodup : (pidsOf t (Q ++ [p])).Nodup := by
    rw [pidsOf, List.map_append]
    refine List.Nodup.append hd (List.nodup_singleton _) ?_
    rw [List.disjoint_comm]
    exact List.singleton_disjoint.mpr hp
  obtain ⟨hv, hret'⟩ := hu.delete_last (by rwa [hpid, hpids])
  refine ⟨_, _, Prod.ext rfl hret, hu, by rwa [hpids], ?_, Prod.ext rfl hret', hv, ?_, fun r l hr hl => ?_⟩
  · have hcard := List.Nodup.length_le_card (List.Nodup.of_map _ hnodup)
    rwa [Fintype.card_fin] at hcard
  · have hlast := hv.last.trans h.last.symm
    change ((t.pushBackProcess p q).1.deleteProcess p q).1.qLatestIdx q = _
    omega
  · exact ⟨hl.push_other hr, (hl.push_other hr).delete_other hr⟩

theorem Holds.push_last (h : Holds t q Q) (hd : (pidsOf t Q).Nodup) {r : Slot} (hr : Q.getLast? = some r)
    (hpid : (t.proc r).pid = (t.proc p).pid) : (t.pushBackProcess p q).2 = 1 := by
  refine (h.push ?_).2
  rw [h.any_iff]
  rintro ⟨i, hi, he⟩
  have hlast : (pidsOf t Q)[Q.length - 1]? = some (t.proc p).pid := by
    rw [pidsOf, List.getElem?_map, ← List.getLast?_eq_getElem?, hr, Option.map_some, hpid]
  have hlen : i < (pidsOf t Q).length := by
    rw [pidsOf, List.length_map]
    omega
  have hsame := (List.getElem?_inj hlen hd).mp (he.trans hlast.symm)
  omega

structure PushesDistinct (t : Table) (p : Slot) (q : ℕ) (Q : List Slot) : Prop where
  refuses : (t.proc p).pid ∈ pidsOf t Q → t.pushBackProcess p q = ({ t with refused := t.refused + 1 }, -1)
  appends : (t.proc p).pid ∉ pidsOf t Q → ∃ u v, t.pushBackProcess p q = (u, 1) ∧ Holds u q (Q ++ [p]) ∧
    (pidsOf u (Q ++ [p])).Nodup ∧ (Q ++ [p]).length ≤ NPROC ∧ u.deleteProcess p q = (v, 1) ∧ Holds v q Q ∧
    v.qLatestIdx q = t.qLatestIdx q ∧ ∀ r l, r ≠ q → Holds t r l → Holds u r l ∧ Holds v r l

theorem push_back_process_distinct (t : Table) (p : Slot) (q : ℕ) (Q : List Slot) (h : Holds t q Q)
    (hd : (pidsOf t Q).Nodup) :
    PushesDistinct t p q Q ↔ ∀ r, Q.getLast? = some r → (t.proc r).pid ≠ (t.proc p).pid := by
  constructor
  · intro hp r hr hpid
    have hmem : (t.proc p).pid ∈ pidsOf t Q := by
      rw [← hpid]
      exact List.mem_map_of_mem (List.mem_of_getLast? hr)
    have hone := h.push_last hd hr hpid
    rw [hp.refuses hmem] at hone
    cases hone
  · intro hlast
    exact ⟨fun hp => h.push_refused hp hlast, h.push_delete hd⟩

def soleEntry (p : Slot) : Table where
  proc := Function.update (fun _ => {}) p { pid := 1 }
  queuePtr _ i := if i = 0 then some p else none
  qLatestIdx _ := 0

theorem soleEntry_holds (p : Slot) (q : ℕ) : Holds (soleEntry p) q [p] := by
  refine ⟨rfl, fun i hi => ?_⟩
  obtain rfl : i = 0 := Nat.lt_one_iff.mp hi
  rfl

theorem push_back_process_distinct_sole : ∃ t p r q, Holds t q [p] ∧ (t.proc r).pid ∉ pidsOf t [p] ∧
    ∃ u v, t.pushBackProcess r q = (u, 1) ∧ Holds u q ([p] ++ [r]) ∧ u.deleteProcess r q = (v, 1) ∧ Holds v q [p] := by
  have hne : ((soleEntry ⟨0, by decide⟩).proc ⟨1, by decide⟩).pid ∉ pidsOf (soleEntry ⟨0, by decide⟩) [⟨0, by decide⟩] := by decide
  have hholds := soleEntry_holds ⟨0, by decide⟩ 0
  have hlast : ∀ r, [(⟨0, by decide⟩ : Slot)].getLast? = some r →
      ((soleEntry ⟨0, by decide⟩).proc r).pid ≠ ((soleEntry ⟨0, by decide⟩).proc ⟨1, by decide⟩).pid := by
    rintro r ⟨⟩
    decide
  obtain ⟨u, v, hpush, hu, -, -, hdelete, hv, -⟩ :=
    ((push_back_process_distinct _ _ 0 _ hholds (List.nodup_singleton _)).mpr hlast).appends hne
  exact ⟨_, _, _, 0, hholds, hne, u, v, hpush, hu, hdelete, hv⟩

theorem push_back_process_twice : ∃ t p q, Holds t q [p] ∧ (pidsOf t [p]).Nodup ∧ (t.pushBackProcess p q).2 = 1 ∧
    Holds (t.pushBackProcess p q).1 q [p, p] := by
  refine ⟨soleEntry ⟨0, by decide⟩, ⟨0, by decide⟩, 0, soleEntry_holds _ 0, List.nodup_singleton _, ?_⟩
  have hpush := (soleEntry_holds ⟨0, by decide⟩ 0).push (p := ⟨0, by decide⟩) (by decide)
  exact ⟨hpush.2, hpush.1⟩

end Duplicates

end EnhancedXv6.ProcTable
