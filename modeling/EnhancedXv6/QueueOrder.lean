import EnhancedXv6.Mlfq

namespace EnhancedXv6

open ProcTable Table Scheduler

namespace ProcTable

variable {t u : Table}

def Fifo (t u : Table) : Prop :=
  ∀ q < 5, ∃ old new, u.queue q = old ++ new ∧ old.Sublist (t.queue q) ∧ ∀ p ∈ new, p ∉ t.queue q

theorem Fifo.same (h : SameQueues t u) : Fifo t u := by
  intro q _
  refine ⟨t.queue q, [], ?_, List.Sublist.refl _, by simp⟩
  rw [queue_congr h.queuePtr h.qLatestIdx, List.append_nil]

theorem Shifts.fifo {V : Slot → Prop} (h : Shifts t u) (ht : InQueues t t.Ready) (hu : InQueues u V) :
    Fifo t u := by
  intro q hq
  obtain ⟨old, new, he, hold, hnew⟩ := h.queue q hq
  refine ⟨old, new, he, hold, fun p hp hm => ?_⟩
  obtain ⟨hr, hl⟩ := (ht.mem_queue hq).mp hm
  have hl' := ((hu.mem_queue hq).mp (by rw [he]; exact List.mem_append_right _ hp)).2
  have hlt := hnew p hp hr
  omega

theorem Fifo.push {W : Slot → Prop} (hs : u.queue = t.queue) (hu : InQueues u W) {p : Slot} {q : ℕ}
    (hp : ¬ W p) (hq : q < 5) (hst : u.st p ≠ .unused) : Fifo t (u.pushBackProcess p q).1 := by
  intro r hr
  rw [hu.push_queue hp hq hr hst, hs]
  split_ifs
  · refine ⟨t.queue r, [p], rfl, List.Sublist.refl _, fun x hx hm => ?_⟩
    rw [List.mem_singleton.mp hx, ← hs] at hm
    exact hp ((hu.mem_queue hr).mp hm).1
  · exact ⟨t.queue r, [], by simp, List.Sublist.refl _, by simp⟩

structure Arrivals where
  clock : ℕ := 0
  since : Slot → ℕ := fun _ => 0

namespace Arrivals

def Stays (t u : Table) (p : Slot) : Prop := ∃ q < 5, p ∈ t.queue q ∧ p ∈ u.queue q

instance (t u : Table) (p : Slot) : Decidable (Stays t u p) := inferInstanceAs (Decidable (∃ _ < _, _))

def pass (g : Arrivals) (t u : Table) : Arrivals where
  clock := g.clock + 1
  since p := if Stays t u p then g.since p else g.clock + 1

structure Ordered (g : Arrivals) (t : Table) : Prop where
  since_le : ∀ p, g.since p ≤ g.clock
  queue : ∀ q < 5, (t.queue q).Pairwise (fun p r => g.since p ≤ g.since r)

theorem Ordered.pass {g : Arrivals} {t u : Table} {V : Slot → Prop} (h : g.Ordered t) (hf : Fifo t u) (hu : InQueues u V) :
    (g.pass t u).Ordered u := by
  have hle : ∀ p, (g.pass t u).since p ≤ g.clock + 1 := by
    intro p
    change (if Stays t u p then _ else _) ≤ _
    split_ifs
    · exact (h.since_le p).trans (Nat.le_succ _)
    · exact le_refl _
  refine ⟨hle, fun q hq => ?_⟩
  obtain ⟨old, new, he, hold, hnew⟩ := hf q hq
  have hstay : ∀ p ∈ old, (g.pass t u).since p = g.since p := by
    intro p hp
    refine if_pos ⟨q, hq, hold.subset hp, ?_⟩
    rw [he]
    exact List.mem_append_left _ hp
  have hjoin : ∀ p ∈ new, (g.pass t u).since p = g.clock + 1 := by
    intro p hp
    refine if_neg ?_
    rintro ⟨r, hr, ht, hur⟩
    -- a process is in one queue only, so `r` is the queue it is new to
    have hpq := ((hu.mem_queue hq).mp (by rw [he]; exact List.mem_append_right _ hp)).2
    have hpr := ((hu.mem_queue hr).mp hur).2
    exact hnew p hp (hpq.symm.trans hpr ▸ ht)
  rw [he, List.pairwise_append]
  refine ⟨?_, ?_, fun p hp r hr => ?_⟩
  · apply (List.Pairwise.sublist hold (h.queue q hq)).imp_of_mem
    intro p r hp hr hpr
    rw [hstay p hp, hstay r hr]
    exact hpr
  · apply List.pairwise_of_forall_mem_list
    intro p hp r hr
    rw [hjoin p hp, hjoin r hr]
  · rw [hjoin r hr]
    exact hle p

end Arrivals

end ProcTable

namespace Threads

open Transition

variable {n : ℕ} {k k' : Kernel n} {l : Label n}

namespace Kernel

theorem Mlfq.fifo_back (h : k.Mlfq) {c : Fin n} {p : Slot} (hp : k.At c .swtchOut p) :
    Fifo k.table (requeue k.table p) := by
  have hnot : ¬ k.Waiting p := fun hw => hw.2 ⟨c, hp.2, hp.1⟩
  unfold requeue
  split_ifs with hs
  · have hd : InQueues (demote k.table p) k.Waiting := by
      unfold demote
      split_ifs
      · have := h.level p
        refine InQueues.setProc h p _ (fun hW => absurd hW hnot) ?_ rfl .rfl
        dsimp only
        split_ifs <;> omega
      · exact h
    have hq : (demote k.table p).queue = k.table.queue := by
      unfold demote
      split_ifs
      · exact queue_congr rfl rfl
      · rfl
    refine Fifo.push hq hd hnot (hd.level p) ?_
    rw [demote_st, st, hs]
    simp
  · exact .same (.refl _)

theorem Mlfq.fifo_make (h : k.Mlfq) (hl : k.LockFree) {np : Slot} (hn : k.table.st np = .embryo) {u : Table}
    (hu : u = ((k.table.setProc np (fun r => { r with state := .runnable })).pushBackProcess np 0).1) :
    Fifo k.table u := by
  have hr := h.lockFree hl
  have h1 := hr.setReady (p := np) (by simp [hn])
  rw [hu]
  refine Fifo.push (queue_congr rfl rfl) h1 ?_ (by decide) (by simp [st])
  simp [Ready, hn]

theorem Mlfq.fifo (h : k.Mlfq) (hi : k.Inv) (h' : k'.Mlfq) (hs : k.step .mlfq l = some k') : Fifo k.table k'.table := by
  have hshift : k.LockFree → Shifts k.table k'.table → Fifo k.table k'.table :=
    fun hl hm => hm.fifo (h.lockFree hl) h'
  have hrun : ∀ {c p}, (k.cpu c).proc = some p → (k.cpu c).ctl ≠ .swtchOut → k.table.st p = .running :=
    fun hp hc => hi.live.running_of hp hc
  have hquiet : ∀ {u : Table}, u.queuePtr = k.table.queuePtr → u.qLatestIdx = k.table.qLatestIdx → Fifo k.table u := by
    intro u hp hq r _
    exact ⟨k.table.queue r, [], by rw [queue_congr hp hq, List.append_nil], List.Sublist.refl _, by simp⟩
  have hpick (hl : k.LockFree) : Fifo k.table (pickMLFQ k.table).1 := by
    obtain ⟨hq, hsh, -⟩ := pickMLFQ_spec (h.lockFree hl)
    exact hsh.fifo (h.lockFree hl) hq
  cases step_cases hs with
  | userinitAlloc hl hc hm ha | forkAlloc hl hp hm ha => rw [(allocproc_eq ha).2]; exact hquiet rfl rfl
  | userinitDone hl hc hm | forkDone hl hp hm => exact h.fifo_make hl (hi.live.embryo _ _ (by rw [hm]; rfl)) rfl
  | exit hl hp => exact hshift hl (Evolves.exit (h.lockFree hl) (hrun hp (hl _).2)).shifts
  | reap ht | waitFail ht | waitSleep ht => exact hquiet ht.sameQueues.queuePtr ht.sameQueues.qLatestIdx
  | wakeup hl hc =>
    rw [setTable_table] at hshift ⊢
    exact hshift hl (Evolves.wakeup1 (h.lockFree hl) _).shifts
  | kill hl hp hm => exact hshift hl (Evolves.kill (h.lockFree hl) _).shifts
  | setPriority hl hp hm => exact .same (.setPriority _ _ _)
  | tick => exact .same (.tick _)
  | idle hl => exact hpick hl
  | run hp =>
    cases hp with
    | schedule hl => exact hpick hl
    | back hb => cases hb
  | back hp => exact h.fifo_back hp
  | _ => exact hquiet rfl rfl

end Kernel

def arrivalMachine (b : Build) (n : ℕ) : Machine (Kernel n × Arrivals) (Label n) :=
  (machine b n).history {} (fun g k _ k' => g.pass k.table k'.table)

theorem reachable_ordered {s : Kernel n × Arrivals} (h : (arrivalMachine .mlfq n).Reachable s)
    (hb : s.1.table.handedOut < 2 ^ 31) : s.2.Ordered s.1.table := by
  refine Machine.ReachableWhere.invariant h
    (P := fun s => s.1.table.handedOut < 2 ^ 31 → s.2.Ordered s.1.table) ?_ ?_ hb
  · rintro ⟨k, g⟩ ⟨hk, hg⟩ -
    obtain rfl : k = Kernel.start n := hk
    obtain rfl : g = {} := hg
    exact ⟨fun _ => le_refl _, fun _ _ => List.Pairwise.nil⟩
  · intro s l s' hr ho _ hn hb'
    obtain ⟨hs, hg⟩ := Machine.history_next hn
    have hk := Machine.history_reachable hr
    have hi := reachable_inv hk
    have hlt := lt_of_le_of_lt (handedOut_mono hi hs) hb'
    have hm := reachable_mlfq hk hlt
    have hm' := reachable_mlfq (hk.next hs) hb'
    rw [hg]
    exact (ho hlt).pass (hm.fifo hi hm' hs) hm'

end Threads

end EnhancedXv6
