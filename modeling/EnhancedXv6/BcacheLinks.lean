import EnhancedXv6.Bcache
import EnhancedXv6.Circular
import EnhancedXv6.Interleaving
import EnhancedXv6.Transition

namespace EnhancedXv6.BcacheLinks

open Circular Transition Machine Counting

abbrev Node := Option (Fin NBUF)

structure Cache (P : Type*) where
  buf : Fin NBUF → Buf P := fun _ => {}
  links : Links Node

namespace Cache

variable {P : Type*}

def binit (L : Links Node) : Cache P where
  links := (List.finRange NBUF).foldl (fun L b => L.insertAfter none (some b)) (L.init none)

def setBuf (c : Cache P) (i : Fin NBUF) (f : Buf P) : Cache P := { c with buf := Function.update c.buf i f }

/-- One of the two loops of `bget`; the outer `none` is a loop that does not end. -/
def search (c : Cache P) (step : Node → Node) (test : Buf P → Bool) : Option (Option (Fin NBUF)) :=
  (Links.scan step none (fun b => b.any (fun i => test (c.buf i))) (NBUF + 1) (step none)).map Option.join

def cached (c : Cache P) (dev blockno : ℕ) : Option (Option (Fin NBUF)) :=
  c.search c.links.next (fun f => f.dev = dev ∧ f.blockno = blockno)

def unused (c : Cache P) : Option (Option (Fin NBUF)) :=
  c.search c.links.prev (fun f => f.refcnt = 0 ∧ f.dirty = false)

def bget (c : Cache P) (dev blockno : ℕ) : Option (Except String (Fin NBUF × Cache P)) :=
  (c.cached dev blockno).bind (fun
    | some i => some (.ok (i, c.setBuf i { c.buf i with refcnt := (c.buf i).refcnt + 1 }))
    | none => c.unused.map (fun
      | some i => .ok (i, c.setBuf i { c.buf i with
          dev := dev, blockno := blockno, valid := false, dirty := false, refcnt := 1 })
      | none => .error "bget: no buffers"))

def brelse (c : Cache P) (i : Fin NBUF) : Cache P :=
  let d := c.setBuf i { c.buf i with refcnt := (c.buf i).refcnt - 1 }
  if (d.buf i).refcnt = 0 then { d with links := (d.links.unlink (some i)).insertAfter none (some i) } else d

@[simp] theorem setBuf_buf (c : Cache P) (i : Fin NBUF) (f : Buf P) : (c.setBuf i f).buf = Function.update c.buf i f := rfl

theorem brelse_buf (c : Cache P) (i : Fin NBUF) :
    (c.brelse i).buf = Function.update c.buf i { c.buf i with refcnt := (c.buf i).refcnt - 1 } := by
  unfold brelse
  dsimp only
  split_ifs <;> rfl

theorem brelse_links (c : Cache P) (i : Fin NBUF) : (c.brelse i).links =
    if (c.buf i).refcnt - 1 = 0 then (c.links.unlink (some i)).insertAfter none (some i) else c.links := by
  unfold brelse
  dsimp only
  rw [setBuf_buf, Function.update_self]
  split_ifs <;> rfl

end Cache

/-- `giving i` is in `brelse` after its `releasesleep`. -/
inductive Proc
  | idle
  | wait (i : Fin NBUF)
  | io (i : Fin NBUF)
  | giving (i : Fin NBUF)
  deriving DecidableEq, Repr

def Proc.uses (i : Fin NBUF) : Proc → ℕ
  | .wait j => if j = i then 1 else 0
  | .giving j => if j = i then 1 else 0
  | _ => 0

theorem Proc.uses_eq (i : Fin NBUF) (c : Proc) : c.uses i = (if c = .giving i then 1 else 0) + if c = .wait i then 1 else 0 := by
  cases c <;> simp [uses]

def locked {P : Type*} (f : Buf P) : ℕ := f.holder.isSome.toNat

structure State (P : Type*) where
  cache : Cache P
  proc : P → Proc := fun _ => .idle
  panic : Option String := none

inductive Label (P : Type*)
  | bget (p : P) (dev blockno : ℕ)
  | acquiresleep (p : P)
  | ideintr (p : P) (data : Block)
  | bwrite (p : P) (i : Fin NBUF)
  | logWrite (p : P) (i : Fin NBUF)
  | setData (p : P) (i : Fin NBUF) (data : Block)
  | releasesleep (p : P) (i : Fin NBUF)
  | brelse (p : P)

namespace State

variable {P : Type*} [DecidableEq P]

abbrev buf (s : State P) (i : Fin NBUF) : Buf P := s.cache.buf i

def move (s : State P) (cache : Cache P) (p : P) (c : Proc) : State P :=
  { s with cache := cache, proc := Function.update s.proc p c }

def fail (s : State P) (e : String) : State P := { s with panic := some e }

/-- `log_write` may be called for any buffer; `bwrite` and `brelse` panic unless the caller holds the lock. -/
def step (s : State P) (l : Label P) : Option (State P) :=
  if s.panic.isSome then none
  else match l with
    | .bget p dev blockno =>
      if s.proc p = .idle then
        (s.cache.bget dev blockno).map (fun
          | .ok (i, c) => s.move c p (.wait i)
          | .error e => s.fail e)
      else none
    | .acquiresleep p => match s.proc p with
      | .wait i =>
        if (s.buf i).holder = none then
          some (s.move (s.cache.setBuf i { s.buf i with holder := some p }) p (if (s.buf i).valid then .idle else .io i))
        else none
      | _ => none
    | .ideintr p data => match s.proc p with
      | .io i => some (s.move (s.cache.setBuf i { s.buf i with
          valid := true, dirty := false, data := if (s.buf i).dirty then (s.buf i).data else data }) p .idle)
      | _ => none
    | .bwrite p i =>
      if s.proc p = .idle then
        if (s.buf i).holder = some p then some (s.move (s.cache.setBuf i { s.buf i with dirty := true }) p (.io i))
        else some (s.fail "bwrite")
      else none
    | .logWrite p i =>
      if s.proc p = .idle then some (s.move (s.cache.setBuf i { s.buf i with dirty := true }) p .idle) else none
    | .setData p i data =>
      if s.proc p = .idle ∧ (s.buf i).holder = some p then
        some (s.move (s.cache.setBuf i { s.buf i with data := data }) p .idle)
      else none
    | .releasesleep p i =>
      if s.proc p = .idle then
        if (s.buf i).holder = some p then some (s.move (s.cache.setBuf i { s.buf i with holder := none }) p (.giving i))
        else some (s.fail "brelse")
      else none
    | .brelse p => match s.proc p with
      | .giving i => some (s.move (s.cache.brelse i) p .idle)
      | _ => none

def Holds (s : State P) (i : Fin NBUF) (p : P) : Prop := (s.buf i).holder = some p ∨ s.proc p = .giving i

def WaitsFor (s : State P) (i : Fin NBUF) (p : P) : Prop := s.proc p = .wait i

instance (s : State P) (i : Fin NBUF) : DecidablePred (s.Holds i) := fun _ => inferInstanceAs (Decidable (_ ∨ _))

omit [DecidableEq P] in
instance (s : State P) (i : Fin NBUF) : DecidablePred (s.WaitsFor i) := fun p => inferInstanceAs (Decidable (s.proc p = .wait i))

end State

def machine (P : Type*) [DecidableEq P] : Machine (State P) (Label P) where
  initial s := ∃ L, s = { cache := .binit L }
  next := State.step

section Lists

variable {P : Type*}

structure Lists (c : Cache P) (lru : List (Fin NBUF)) : Prop where
  repr : c.links.Repr none (lru.map some)
  mem : ∀ i, i ∈ lru

namespace Lists

variable {c : Cache P} {lru : List (Fin NBUF)}

theorem nodup (h : Lists c lru) : lru.Nodup := (List.nodup_cons.mp h.repr.nodup).2.of_map _

theorem perm (h : Lists c lru) : lru.Perm (List.finRange NBUF) :=
  (List.perm_ext_iff_of_nodup h.nodup (List.nodup_finRange NBUF)).mpr (fun i => by simp [h.mem i])

theorem length (h : Lists c lru) : lru.length = NBUF := by rw [h.perm.length_eq, List.length_finRange]

theorem join_find (xs : List (Fin NBUF)) (test : Buf P → Bool) :
    ((xs.map some).find? (fun b : Node => b.any (fun i => test (c.buf i)))).join = xs.find? (fun i => test (c.buf i)) := by
  rw [List.find?_map]
  change Option.join (Option.map some (xs.find? (fun i => test (c.buf i)))) = _
  cases xs.find? (fun i => test (c.buf i)) <;> rfl

theorem search_next (h : Lists c lru) (test : Buf P → Bool) :
    c.search c.links.next test = some (lru.find? (fun i => test (c.buf i))) := by
  rw [Cache.search, h.repr.scan_next _ (by rw [List.length_map, h.length]; exact Nat.lt_succ_self _), Option.map_some, join_find]

theorem search_prev (h : Lists c lru) (test : Buf P → Bool) :
    c.search c.links.prev test = some (lru.reverse.find? (fun i => test (c.buf i))) := by
  rw [Cache.search, h.repr.scan_prev _ (by rw [List.length_map, h.length]; exact Nat.lt_succ_self _), Option.map_some,
    ← List.map_reverse, join_find]

theorem binit (L : Links Node) : Lists (Cache.binit L : Cache P) (List.finRange NBUF).reverse := by
  have hfold : ∀ (xs ys : List (Fin NBUF)) (L : Links Node), L.Repr none (ys.map some) → (xs ++ ys).Nodup →
      (xs.foldl (fun L (b : Fin NBUF) => L.insertAfter none (some b)) L).Repr none ((xs.reverse ++ ys).map some) := by
    intro xs
    induction xs with
    | nil => exact fun ys L hL _ => hL
    | cons x xs ih =>
      intro ys L hL hnd
      have hx := (List.nodup_cons.mp hnd).1
      rw [List.foldl_cons, List.reverse_cons, List.append_assoc]
      apply ih (x :: ys) _ (hL.insertAfter ?_) (List.nodup_middle.mpr hnd)
      simpa using fun e => hx (List.mem_append_right _ e)
  refine ⟨?_, fun i => by simp⟩
  have hr := hfold (List.finRange NBUF) [] (L.init none) (Links.Repr.init L none) (by simpa using List.nodup_finRange NBUF)
  rwa [List.append_nil] at hr

theorem of_links {d : Cache P} (h : Lists c lru) (hl : d.links = c.links) : Lists d lru := ⟨hl ▸ h.repr, h.mem⟩

theorem brelse (h : Lists c lru) (i : Fin NBUF) (disk : ℕ → Block) :
    Lists (c.brelse i) (Bcache.brelse { disk := disk, buf := c.buf, lru := lru } i).lru := by
  by_cases h0 : (c.buf i).refcnt - 1 = 0
  · obtain ⟨us, vs, -, hlru, he⟩ := List.exists_erase_eq (h.mem i)
    have hr := h.repr
    rw [hlru, List.map_append, List.map_cons] at hr
    rw [Bcache.brelse, if_pos h0]
    refine ⟨?_, fun j => ?_⟩
    · rw [Cache.brelse_links, if_pos h0, List.map_cons, he, List.map_append]
      exact hr.moveToFront
    · by_cases e : j = i
      · rw [e]
        exact List.mem_cons_self
      · exact List.mem_cons_of_mem _ ((List.mem_erase_of_ne e).mpr (h.mem j))
  · rw [Bcache.brelse, if_neg h0]
    exact h.of_links (by rw [Cache.brelse_links, if_neg h0])

end Lists

end Lists

section Steps

variable {P : Type*} [DecidableEq P]

inductive Steps (s : State P) : Label P → State P → Prop
  | hit {p dev blockno i} (hp : s.proc p = .idle) (hc : s.cache.cached dev blockno = some (some i)) :
      Steps s (.bget p dev blockno) (s.move (s.cache.setBuf i { s.buf i with refcnt := (s.buf i).refcnt + 1 }) p (.wait i))
  | recycle {p dev blockno i} (hp : s.proc p = .idle) (hc : s.cache.cached dev blockno = some none)
      (hu : s.cache.unused = some (some i)) : Steps s (.bget p dev blockno) (s.move (s.cache.setBuf i { s.buf i with
        dev := dev, blockno := blockno, valid := false, dirty := false, refcnt := 1 }) p (.wait i))
  | acquiresleep {p i} (hp : s.proc p = .wait i) (hh : (s.buf i).holder = none) : Steps s (.acquiresleep p)
      (s.move (s.cache.setBuf i { s.buf i with holder := some p }) p (if (s.buf i).valid then .idle else .io i))
  | ideintr {p i data} (hp : s.proc p = .io i) : Steps s (.ideintr p data) (s.move (s.cache.setBuf i { s.buf i with
        valid := true, dirty := false, data := if (s.buf i).dirty then (s.buf i).data else data }) p .idle)
  | bwrite {p i} (hp : s.proc p = .idle) (hh : (s.buf i).holder = some p) :
      Steps s (.bwrite p i) (s.move (s.cache.setBuf i { s.buf i with dirty := true }) p (.io i))
  | logWrite {p i} (hp : s.proc p = .idle) :
      Steps s (.logWrite p i) (s.move (s.cache.setBuf i { s.buf i with dirty := true }) p .idle)
  | setData {p i data} (hp : s.proc p = .idle) (hh : (s.buf i).holder = some p) :
      Steps s (.setData p i data) (s.move (s.cache.setBuf i { s.buf i with data := data }) p .idle)
  | releasesleep {p i} (hp : s.proc p = .idle) (hh : (s.buf i).holder = some p) :
      Steps s (.releasesleep p i) (s.move (s.cache.setBuf i { s.buf i with holder := none }) p (.giving i))
  | brelse {p i} (hp : s.proc p = .giving i) : Steps s (.brelse p) (s.move (s.cache.brelse i) p .idle)

theorem step_cases {s t : State P} {l : Label P} (h : s.step l = some t) : Steps s l t ∨ ∃ e, t = s.fail e := by
  unfold State.step at h
  split_ifs at h
  cases l with
  | bget p dev blockno =>
    dsimp only at h
    split_ifs at h with hp
    unfold Cache.bget at h
    cases hc : s.cache.cached dev blockno with
    | none => simp [hc] at h
    | some r =>
      cases r with
      | some i =>
        rw [hc] at h
        cases h
        exact .inl (.hit hp hc)
      | none =>
        rw [hc, Option.bind_some] at h
        cases hu : s.cache.unused with
        | none => simp [hu] at h
        | some r =>
          rw [hu] at h
          cases r with
          | some i =>
            cases h
            exact .inl (.recycle hp hc hu)
          | none =>
            cases h
            exact .inr ⟨_, rfl⟩
  | acquiresleep p =>
    cases hp : s.proc p <;> simp only [hp, reduceCtorEq] at h
    rename_i i
    by_cases hh : (s.buf i).holder = none
    · rw [if_pos hh] at h
      cases h
      exact .inl (.acquiresleep hp hh)
    · rw [if_neg hh] at h
      cases h
  | ideintr p data =>
    cases hp : s.proc p <;> simp only [hp, reduceCtorEq] at h
    cases h
    exact .inl (.ideintr hp)
  | bwrite p i =>
    dsimp only at h
    split_ifs at h with hp hh
    · cases h
      exact .inl (.bwrite hp hh)
    · cases h
      exact .inr ⟨_, rfl⟩
  | logWrite p i =>
    dsimp only at h
    split_ifs at h with hp
    cases h
    exact .inl (.logWrite hp)
  | setData p i data =>
    dsimp only at h
    split_ifs at h with hp
    cases h
    exact .inl (.setData hp.1 hp.2)
  | releasesleep p i =>
    dsimp only at h
    split_ifs at h with hp hh
    · cases h
      exact .inl (.releasesleep hp hh)
    · cases h
      exact .inr ⟨_, rfl⟩
  | brelse p =>
    cases hp : s.proc p <;> simp only [hp, reduceCtorEq] at h
    cases h
    exact .inl (.brelse hp)

def Unique (s : State P) : Prop :=
  ∀ i j, (s.buf i).dev ≠ 0 → (s.buf i).dev = (s.buf j).dev → (s.buf i).blockno = (s.buf j).blockno → i = j

variable {s t : State P} {l : Label P} {lru : List (Fin NBUF)}

theorem Lists.step (h : Lists s.cache lru) (hs : Steps s l t) : ∃ lru', Lists t.cache lru' := by
  cases hs with
  | brelse hp => exact ⟨_, h.brelse _ (fun _ _ => 0)⟩
  | _ => exact ⟨lru, h.of_links rfl⟩

def recordReleased (r : List (Fin NBUF)) (s : State P) (l : Label P) (_ : State P) : List (Fin NBUF) := match l with
  | .brelse p => match s.proc p with
    | .giving i => if (s.buf i).refcnt - 1 = 0 then i :: r else r
    | _ => r
  | _ => r

def releases (P : Type*) [DecidableEq P] : Machine (State P × List (Fin NBUF)) (Label P) :=
  (machine P).history (List.finRange NBUF).reverse recordReleased

def Recent (x : State P × List (Fin NBUF)) : Prop := ∃ lru, Lists x.1.cache lru ∧ lru.Pairwise (fun i j => x.2.idxOf i < x.2.idxOf j)

theorem Recent.step {x y : State P × List (Fin NBUF)} (h : Recent x) (hs : (releases P).next x l = some y) : Recent y := by
  obtain ⟨hstep, hr⟩ := history_next hs
  obtain ⟨lru, hl, hp⟩ := h
  rw [Recent, hr]
  have hst := step_cases hstep
  cases l with
  | brelse p =>
    change x.1.step (.brelse p) = some y.1 at hstep
    unfold State.step at hstep
    split_ifs at hstep
    cases hi : x.1.proc p <;> simp only [hi, reduceCtorEq] at hstep
    next i =>
    rw [← Option.some.inj hstep]
    refine ⟨_, hl.brelse i (fun _ _ => 0), ?_⟩
    have hmem := fun j => hl.nodup.mem_erase_iff (a := j) (b := i)
    have hp' := hp.sublist (List.erase_sublist (a := i))
    simp only [recordReleased, hi, Bcache.brelse]
    split_ifs
    · refine List.pairwise_cons.mpr ⟨fun j hj => ?_, hp'.imp_of_mem (fun {j k} hj hk hjk => ?_)⟩ <;> grind
    · exact hp
  | _ =>
    rcases hst with hst | ⟨e, he⟩
    · generalize y.1 = t at hst
      cases hst
      all_goals exact ⟨lru, hl.of_links rfl, hp⟩
    · exact ⟨lru, by rwa [he], hp⟩

theorem binit_pairwise : (List.finRange NBUF).reverse.Pairwise (fun i j => (List.finRange NBUF).reverse.idxOf i < (List.finRange NBUF).reverse.idxOf j) := by
  decide +kernel

theorem bget_least_recent {r : List (Fin NBUF)} (h : (releases P).Reachable (s, r)) {p : P} (hn : s.panic = none) (hp : s.proc p = .idle)
    (dev blockno : ℕ) (hc : ∀ i, ¬ ((s.buf i).dev = dev ∧ (s.buf i).blockno = blockno)) {j : Fin NBUF} (hj : (s.buf j).refcnt = 0 ∧ (s.buf j).dirty = false) :
    ∃ i t, s.step (.bget p dev blockno) = some t ∧ t.proc p = .wait i ∧ (t.buf i).blockno = blockno ∧
      (s.buf i).refcnt = 0 ∧ (s.buf i).dirty = false ∧ r.idxOf j ≤ r.idxOf i := by
  obtain ⟨lru, hl, hr⟩ : Recent (s, r) := by
    refine h.invariant ?_ (fun x l y hx hs => hx.step hs)
    rintro ⟨s, r⟩ ⟨⟨L, rfl⟩, rfl⟩
    exact ⟨_, Lists.binit L, binit_pairwise⟩
  have hcached : s.cache.cached dev blockno = some none := by
    rw [Cache.cached, hl.search_next]
    simpa using fun i _ => not_and.mp (hc i)
  obtain ⟨i, hi⟩ : ∃ i, lru.reverse.find? (fun i => decide ((s.buf i).refcnt = 0 ∧ (s.buf i).dirty = false)) = some i := by
    rw [← Option.isSome_iff_exists, List.find?_isSome]
    exact ⟨j, List.mem_reverse.mpr (hl.mem j), decide_eq_true hj⟩
  have hu : s.cache.unused = some (some i) := by rw [Cache.unused, hl.search_prev, hi]
  obtain ⟨hfree, as, bs, he, has⟩ := List.find?_eq_some_iff_append.mp hi
  refine ⟨i, _, by simp only [State.step, hn, hp, Cache.bget, hcached, hu]; rfl, by simp [State.move], ?_, (of_decide_eq_true hfree).1, (of_decide_eq_true hfree).2, ?_⟩
  · simp only [State.buf, State.move, Cache.setBuf_buf, Function.update_self]
  -- the buffers between `i` and the front of the list were released later
  have hjm : j ∈ as ++ i :: bs := he ▸ List.mem_reverse.mpr (hl.mem j)
  rw [← List.pairwise_reverse, he] at hr
  grind [List.pairwise_cons]

def someReleased : List (Label Bool) :=
  [.bget true 1 2, .acquiresleep true, .ideintr true default, .releasesleep true ⟨0, by decide⟩, .brelse true,
    .bget false 1 3, .acquiresleep false, .ideintr false default,
    .bget true 1 4, .acquiresleep true, .ideintr true default, .releasesleep true ⟨2, by decide⟩, .brelse true,
    .bget true 1 2, .acquiresleep true, .releasesleep true ⟨0, by decide⟩, .brelse true]

theorem bget_least_recent_released : ∃ (s t : State Bool) (r : List (Fin NBUF)) (i j : Fin NBUF),
    (releases Bool).Reachable (s, r) ∧ (s.buf j).blockno = 2 ∧ r.idxOf j = 0 ∧
      s.step (.bget true 1 5) = some t ∧ t.proc true = .wait i ∧ (t.buf i).blockno = 5 ∧ r.idxOf j ≤ r.idxOf i := by
  obtain ⟨⟨s, r⟩, hr, h⟩ := exists_reachable (M := releases Bool) (w := someReleased)
    (s := ({ cache := .binit ⟨id, id⟩ }, (List.finRange NBUF).reverse))
    (P := fun x => x.1.panic = none ∧ x.1.proc true = .idle ∧ (∀ i, (x.1.buf i).blockno ≠ 5) ∧
      (x.1.buf ⟨0, by decide⟩).refcnt = 0 ∧ (x.1.buf ⟨0, by decide⟩).dirty = false ∧
      (x.1.buf ⟨0, by decide⟩).blockno = 2 ∧ x.2.idxOf ⟨0, by decide⟩ = 0) ⟨⟨_, rfl⟩, rfl⟩ (by decide +kernel)
  obtain ⟨hn, hp, hc, hfree, hclean, hblock, hfirst⟩ := of_decide_eq_true h
  obtain ⟨i, t, ht, hi, hb, -, -, hle⟩ := bget_least_recent hr hn hp 1 5 (fun i hi => hc i hi.2) ⟨hfree, hclean⟩
  exact ⟨s, t, r, i, _, hr, hblock, hfirst, ht, hi, hb, hle⟩

structure Changes (s t : State P) (p : P) (c : Proc) (i : Fin NBUF) (f : Buf P) : Prop where
  proc : t.proc = Function.update s.proc p c
  buf : t.cache.buf = Function.update s.cache.buf i f
  block : f.dev = (s.buf i).dev ∧ f.blockno = (s.buf i).blockno ∨ ((s.buf i).refcnt = 0 ∧ (s.buf i).dirty = false) ∧
    ∀ j, ¬ ((s.buf j).dev = f.dev ∧ (s.buf j).blockno = f.blockno)
  refs : f.refcnt + ((s.proc p).uses i + locked (s.buf i)) = (s.buf i).refcnt + (c.uses i + locked f)
  others : ∀ j ≠ i, c.uses j = (s.proc p).uses j
  giving : ∀ j, c = .giving j → j = i ∧ f.holder = none
  holder : f.holder = (s.buf i).holder ∨ f.holder = none ∨ f.holder = some p

theorem Changes.buf_cases {p : P} {c : Proc} {i : Fin NBUF} {f : Buf P} (h : Changes s t p c i f) (j : Fin NBUF) : j = i ∧ t.buf j = f ∨ j ≠ i ∧ t.buf j = s.buf j := by
  rw [State.buf, h.buf]
  by_cases e : j = i
  · rw [e, Function.update_self]
    exact .inl ⟨rfl, rfl⟩
  · rw [Function.update_of_ne e]
    exact .inr ⟨e, rfl⟩

theorem Lists.changes (h : Lists s.cache lru) (hpos : ∀ p i, s.proc p = .giving i → 0 < (s.buf i).refcnt) (hs : Steps s l t) :
    ∃ p c i f, Changes s t p c i f := by
  cases hs with
  | @hit p dev blockno i hp hc =>
    refine ⟨p, _, i, _, rfl, rfl, .inl ⟨rfl, rfl⟩, ?_, ?_, ?_, .inl rfl⟩
    · simp [hp, Proc.uses, locked, add_assoc]
    · intro j hj
      simp [hp, Proc.uses, Ne.symm hj]
    · rintro j ⟨⟩
  | @recycle p dev blockno i hp hc hu =>
    rw [Cache.unused, h.search_prev] at hu
    rw [Cache.cached, h.search_next] at hc
    have hfree : (s.buf i).refcnt = 0 ∧ (s.buf i).dirty = false := by simpa using List.find?_some (Option.some.inj hu)
    refine ⟨p, _, i, _, rfl, rfl, .inr ⟨hfree, fun j => ?_⟩, ?_, ?_, ?_, .inl rfl⟩
    · simpa using List.find?_eq_none.mp (Option.some.inj hc) j (h.mem j)
    · simp [hp, Proc.uses, locked, hfree.1]
    · intro j hj
      simp [hp, Proc.uses, Ne.symm hj]
    · rintro j ⟨⟩
  | @acquiresleep p i hp hh =>
    refine ⟨p, _, i, _, rfl, rfl, .inl ⟨rfl, rfl⟩, ?_, ?_, ?_, .inr (.inr rfl)⟩
    · split_ifs <;> simp [hp, hh, Proc.uses, locked]
    · intro j hj
      split_ifs <;> simp [hp, Proc.uses, Ne.symm hj]
    · intro j
      split_ifs <;> rintro ⟨⟩
  | @ideintr p i data hp =>
    refine ⟨p, _, i, _, rfl, rfl, .inl ⟨rfl, rfl⟩, ?_, ?_, ?_, .inl rfl⟩
    · simp [hp, Proc.uses, locked]
    · intro j hj
      simp [hp, Proc.uses]
    · rintro j ⟨⟩
  | @bwrite p i hp hh =>
    refine ⟨p, _, i, _, rfl, rfl, .inl ⟨rfl, rfl⟩, ?_, ?_, ?_, .inl rfl⟩
    · simp [hp, Proc.uses, locked]
    · intro j hj
      simp [hp, Proc.uses]
    · rintro j ⟨⟩
  | @logWrite p i hp =>
    refine ⟨p, _, i, _, rfl, rfl, .inl ⟨rfl, rfl⟩, ?_, ?_, ?_, .inl rfl⟩
    · simp [hp, Proc.uses, locked]
    · intro j hj
      simp [hp, Proc.uses]
    · rintro j ⟨⟩
  | @setData p i data hp hh =>
    refine ⟨p, _, i, _, rfl, rfl, .inl ⟨rfl, rfl⟩, ?_, ?_, ?_, .inl rfl⟩
    · simp [hp, Proc.uses, locked]
    · intro j hj
      simp [hp, Proc.uses]
    · rintro j ⟨⟩
  | @releasesleep p i hp hh =>
    refine ⟨p, _, i, _, rfl, rfl, .inl ⟨rfl, rfl⟩, ?_, ?_, ?_, .inr (.inl rfl)⟩
    · simp [hp, hh, Proc.uses, locked]
    · intro j hj
      simp [hp, Proc.uses, Ne.symm hj]
    · rintro j ⟨⟩
      exact ⟨rfl, rfl⟩
  | @brelse p i hp =>
    refine ⟨p, _, i, _, rfl, Cache.brelse_buf _ _, .inl ⟨rfl, rfl⟩, ?_, ?_, ?_, .inl rfl⟩
    · have := hpos p i hp
      change (s.buf i).refcnt - 1 + ((s.proc p).uses i + locked (s.buf i)) = (s.buf i).refcnt + (0 + locked (s.buf i))
      rw [hp, Proc.uses, if_pos rfl]
      omega
    · intro j hj
      simp [hp, Proc.uses, Ne.symm hj]
    · rintro j ⟨⟩

end Steps

variable {P : Type*} [Fintype P] {s t : State P}

structure Inv (s : State P) : Prop where
  lists : ∃ lru, Lists s.cache lru
  unique : Unique s
  refs : ∀ i, (s.buf i).refcnt = total (Proc.uses i) s.proc + locked (s.buf i)
  giving : ∀ p i, s.proc p = .giving i → (s.buf i).holder ≠ some p

namespace Inv

theorem refcnt_pos (h : Inv s) {p : P} {i : Fin NBUF} (hp : s.proc p = .giving i) : 0 < (s.buf i).refcnt := by
  have hle := le_total (Proc.uses i) s.proc p
  rw [hp, Proc.uses, if_pos rfl] at hle
  rw [h.refs i]
  omega

theorem initial (L : Links Node) : Inv ({ cache := .binit L } : State P) := by
  refine ⟨⟨_, Lists.binit L⟩, fun i j h0 => absurd rfl h0, fun i => ?_, fun p i hp => by cases hp⟩
  have hu : total (Proc.uses i) (fun _ : P => .idle) = 0 := total_eq_zero_iff.mpr (fun _ => rfl)
  change 0 = total (Proc.uses i) (fun _ : P => .idle) + 0
  rw [hu]

variable [DecidableEq P]

theorem changes (h : Inv s) {l : Label P} (hs : Steps s l t) : ∃ p c i f, Changes s t p c i f := by
  obtain ⟨lru, hl⟩ := h.lists
  exact hl.changes (fun p i => h.refcnt_pos) hs

variable {p : P} {c : Proc} {i : Fin NBUF} {f : Buf P}

theorem unique_changes (h : Inv s) (hc : Changes s t p c i f) : Unique t := by
  intro j k h0 hd hb
  rcases hc.buf_cases j with ⟨rfl, ej⟩ | ⟨hj, ej⟩ <;> rcases hc.buf_cases k with ⟨rfl, ek⟩ | ⟨hk, ek⟩
  · rfl
  · rw [ej] at h0
    rw [ej, ek] at hd hb
    rcases hc.block with ⟨e1, e2⟩ | ⟨-, hnew⟩
    · exact h.unique _ _ (e1 ▸ h0) (e1 ▸ hd) (e2 ▸ hb)
    · exact absurd ⟨hd.symm, hb.symm⟩ (hnew k)
  · rw [ej] at h0
    rw [ej, ek] at hd hb
    rcases hc.block with ⟨e1, e2⟩ | ⟨-, hnew⟩
    · exact h.unique _ _ h0 (hd.trans e1) (hb.trans e2)
    · exact absurd ⟨hd, hb⟩ (hnew j)
  · rw [ej] at h0
    rw [ej, ek] at hd hb
    exact h.unique j k h0 hd hb

theorem refs_changes (h : Inv s) (hc : Changes s t p c i f) (j : Fin NBUF) :
    (t.buf j).refcnt = total (Proc.uses j) t.proc + locked (t.buf j) := by
  have hu := total_update (Proc.uses j) s.proc p c
  have hr := h.refs j
  rw [hc.proc]
  rcases hc.buf_cases j with ⟨rfl, e⟩ | ⟨hj, e⟩
  · have := hc.refs
    rw [e]
    omega
  · rw [hc.others j hj] at hu
    rw [e]
    omega

theorem giving_changes (h : Inv s) (hc : Changes s t p c i f) (q : P) (j : Fin NBUF) (hq : t.proc q = .giving j) :
    (t.buf j).holder ≠ some q := by
  rw [hc.proc] at hq
  by_cases e : q = p
  · subst e
    rw [Function.update_self] at hq
    obtain ⟨rfl, hf⟩ := hc.giving j hq
    rw [State.buf, hc.buf, Function.update_self, hf]
    exact nofun
  · rw [Function.update_of_ne e] at hq
    have hold := h.giving q j hq
    rcases hc.buf_cases j with ⟨rfl, ej⟩ | ⟨hj, ej⟩
    · rw [ej]
      rcases hc.holder with hf | hf | hf
      · exact hf ▸ hold
      · rw [hf]
        exact nofun
      · rw [hf]
        exact fun he => e (Option.some.inj he).symm
    · rw [ej]
      exact hold

theorem step (h : Inv s) {l : Label P} (hs : s.step l = some t) : Inv t := by
  rcases step_cases hs with hst | ⟨e, rfl⟩
  · obtain ⟨p, c, i, f, hc⟩ := h.changes hst
    obtain ⟨lru, hl⟩ := h.lists
    exact ⟨hl.step hst, h.unique_changes hc, h.refs_changes hc, h.giving_changes hc⟩
  · exact ⟨h.lists, h.unique, h.refs, h.giving⟩

theorem refcnt_eq (h : Inv s) (i : Fin NBUF) :
    (s.buf i).refcnt = (Finset.univ.filter (s.Holds i)).card + (Finset.univ.filter (s.WaitsFor i)).card := by
  have hsplit : total (Proc.uses i) s.proc =
      (Finset.univ.filter (fun p => s.proc p = .giving i)).card + (Finset.univ.filter (s.WaitsFor i)).card := by
    rw [total, Finset.card_filter, Finset.card_filter, ← Finset.sum_add_distrib]
    apply Finset.sum_congr rfl
    intro p _
    exact Proc.uses_eq i (s.proc p)
  have hholds : (Finset.univ.filter (s.Holds i)).card =
      locked (s.buf i) + (Finset.univ.filter (fun p => s.proc p = .giving i)).card := by
    have hdis : Disjoint (Finset.univ.filter (fun p => (s.buf i).holder = some p))
        (Finset.univ.filter (fun p => s.proc p = .giving i)) := by
      apply Finset.disjoint_filter.mpr
      intro p _ hp hg
      exact h.giving p i hg hp
    have hone : (Finset.univ.filter (fun p => (s.buf i).holder = some p)).card = locked (s.buf i) := by
      unfold locked
      cases (s.buf i).holder with
      | none => simp
      | some q => simp [Finset.filter_eq]
    rw [← hone, ← Finset.card_union_of_disjoint hdis, ← Finset.filter_or]
    rfl
  rw [h.refs i, hsplit, hholds]
  omega

end Inv

variable [DecidableEq P]

theorem reachable_inv (h : (machine P).Reachable s) : Inv s := by
  refine h.invariant ?_ (fun s l t hp hn => hp.step hn)
  rintro s ⟨L, rfl⟩
  exact Inv.initial L

theorem buffer_cache (s : State P) (h : (machine P).Reachable s) :
    ((List.iterate s.cache.links.next (s.cache.links.next none) NBUF).Perm ((List.finRange NBUF).map some) ∧
      s.cache.links.next^[NBUF + 1] none = none ∧
      ∀ a, s.cache.links.prev (s.cache.links.next a) = a ∧ s.cache.links.next (s.cache.links.prev a) = a) ∧
    (∀ i j, (s.buf i).dev ≠ 0 → (s.buf i).dev = (s.buf j).dev → (s.buf i).blockno = (s.buf j).blockno → i = j) ∧
    (∀ l t, s.step l = some t → ∀ i, ((t.buf i).dev, (t.buf i).blockno) ≠ ((s.buf i).dev, (s.buf i).blockno) →
      (s.buf i).refcnt = 0 ∧ (s.buf i).dirty = false) ∧
    (∀ i, (s.buf i).refcnt = (Finset.univ.filter (s.Holds i)).card + (Finset.univ.filter (s.WaitsFor i)).card) ∧
    ∀ p dev blockno, s.panic = none → s.proc p = .idle → (s.step (.bget p dev blockno)).isSome := by
  have hi := reachable_inv h
  obtain ⟨lru, hl⟩ := hi.lists
  have hlen : (lru.map some).length = NBUF := by rw [List.length_map, hl.length]
  have hit := hl.repr.seg.iterate_next
  rw [hlen] at hit
  have hmem : ∀ a : Node, a ∈ none :: lru.map some := by
    intro a
    cases a with
    | none => exact List.mem_cons_self
    | some i => exact List.mem_cons_of_mem _ (List.mem_map_of_mem (hl.mem i))
  refine ⟨⟨?_, hit.2, fun a => ⟨hl.repr.prev_next (hmem a), hl.repr.next_prev (hmem a)⟩⟩, hi.unique,
    fun l t hs i hne => ?_, hi.refcnt_eq, fun p dev blockno hn hp => ?_⟩
  · rw [hit.1]
    exact hl.perm.map some
  · rcases step_cases hs with hst | ⟨e, rfl⟩
    · obtain ⟨p, c, j, f, hc⟩ := hi.changes hst
      rcases hc.buf_cases i with ⟨rfl, e⟩ | ⟨-, e⟩
      · rcases hc.block with ⟨e1, e2⟩ | ⟨hfree, -⟩
        · exact absurd (by rw [e, e1, e2]) hne
        · exact hfree
      · exact absurd (by rw [e]) hne
    · exact absurd rfl hne
  · have hstep : s.step (.bget p dev blockno) = (s.cache.bget dev blockno).map (fun
        | .ok (i, c) => s.move c p (.wait i)
        | .error e => s.fail e) := by
      simp only [State.step, hn, hp]
      rfl
    rw [hstep, Option.isSome_map, Cache.bget, Cache.cached, hl.search_next, Option.bind_some]
    cases lru.find? (fun i => decide ((s.cache.buf i).dev = dev ∧ (s.cache.buf i).blockno = blockno)) with
    | some i => rfl
    | none =>
      dsimp only
      rw [Option.isSome_map, Cache.unused, hl.search_prev]
      rfl

theorem buffer_cache_two : ∃ s : State (Fin 2), ∃ i, (machine (Fin 2)).Reachable s ∧ (s.buf i).dev = 1 ∧ (s.buf i).blockno = 5 ∧
    (s.buf i).refcnt = 2 ∧ (Finset.univ.filter (s.Holds i)).card + (Finset.univ.filter (s.WaitsFor i)).card = 2 := by
  obtain ⟨s, hs, hP⟩ := exists_reachable (M := machine (Fin 2)) (s := { cache := .binit ⟨id, id⟩ })
    (w := [.bget 0 1 5, .acquiresleep 0, .bget 1 1 5, .ideintr 0 (fun _ => 0)])
    (P := fun s => (List.finRange NBUF).any (fun i => (s.buf i).dev = 1 ∧ (s.buf i).blockno = 5 ∧ (s.buf i).refcnt = 2)) ⟨_, rfl⟩
    (by decide +kernel)
  obtain ⟨i, -, hi⟩ := List.any_eq_true.mp hP
  obtain ⟨hd, hb, hr⟩ := of_decide_eq_true hi
  exact ⟨s, i, hs, hd, hb, hr, ((buffer_cache s hs).2.2.2.1 i).symm.trans hr⟩

end EnhancedXv6.BcacheLinks
