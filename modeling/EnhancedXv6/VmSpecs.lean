
import EnhancedXv6.PageTables
import Mathlib.Data.List.Basic
import Mathlib.Data.Set.Card

namespace EnhancedXv6.Vm

open Function (update update_of_ne update_self)
open Command Bytes Ownership

variable {L : Layout} {r : Ram}

def safe (L : Layout) : Spec sig Ram := execSpec (exec L) (fun _ => False)

theorem safe_mono (L : Layout) : (safe L).Mono := execSpec_mono (S := sig) (exec L) _

theorem run_of_wp {α : Type} {m : Code α} {Q : α → Ram → Prop} (h : wp (safe L) m r Q) :
    ∃ a r', run (exec L) m r = .ok (a, r') ∧ Q a r' := by
  have hrun := (wp_execSpec (S := sig) (exec L) _ m r Q).mp h
  cases hr : run (exec L) m r with
  | error e =>
    rw [hr] at hrun
    exact hrun.elim
  | ok x =>
    rw [hr] at hrun
    exact ⟨x.1, x.2, rfl, hrun⟩

structure Usable (Φ : Spec sig Ram) (r : Ram) (f : ℕ) : Prop where
  word : ∀ j (Q : UInt32 → Ram → Prop), Q (word (r.page f) j) r → Φ (.word f j) r Q
  setWord : ∀ j v (Q : Unit → Ram → Prop), Q () (r.setPage f (setWord (r.page f) j v)) → Φ (.setWord f j v) r Q
  memset : ∀ b (Q : Unit → Ram → Prop), Q () (r.setPage f (fun _ => b)) → Φ (.memset f b) r Q
  store : ∀ j bs (Q : Unit → Ram → Prop), Q () (r.setPage f (overwrite (r.page f) j bs)) → Φ (.store f j bs) r Q

def Held (L : Layout) (r : Ram) (f : ℕ) : Prop := f ∈ L.frames ∧ f ∉ r.freelist

/-- `kalloc` may find no page although there is one. -/
def Denies (Φ : Spec sig Ram) : Prop := ∃ r : Ram, r.freelist ≠ [] ∧ ¬ Φ .kalloc r (fun x _ => x ≠ none)

class Grants (L : Layout) (Φ : Spec sig Ram) : Prop where
  mono : Φ.Mono
  of_safe : ∀ o r Q, safe L o r Q → Φ o r Q
  kalloc : ∀ r (Q : Option ℕ → Ram → Prop),
    (∀ r', r'.page = r.page → r'.freelist = r.freelist → Denies Φ ∨ r'.freelist = [] → Q none r') →
    (∀ f r', r.Takes f r' → Q (some f) r') → Φ .kalloc r Q

theorem grants_mono (L : Layout) {Φ : Spec sig Ram} [h : Grants L Φ] : Φ.Mono := h.mono

theorem wp_of_safe {Φ : Spec sig Ram} [h : Grants L Φ] {α : Type} {m : Code α} {Q : α → Ram → Prop}
    (hwp : wp (safe L) m r Q) : wp Φ m r Q := wp_weaken (safe_mono L) h.of_safe m hwp

theorem access_ok {β : Type} {f : ℕ} (hf : f < 57344) (x : β) : access f x = .ok x :=
  if_pos (show f * 4096 < 0xE000000 by omega)

section ExecSpec

variable {E : Stop → Prop}

theorem execSpec_of_exec {r' : Ram} {o : Op} {a : o.Res} {Q : o.Res → Ram → Prop}
    (he : exec L o r = .ok (a, r')) (h : Q a r') : execSpec (S := sig) (exec L) E o r Q := by
  unfold execSpec
  rw [he]
  exact h

theorem usable_of_lt {f : ℕ} (hf : f < 57344) : Usable (execSpec (S := sig) (exec L) E) r f where
  word j _ := execSpec_of_exec (o := .word f j) (access_ok hf _)
  setWord j v _ := execSpec_of_exec (o := .setWord f j v) (access_ok hf _)
  memset b _ := execSpec_of_exec (o := .memset f b) (access_ok hf _)
  store j bs _ := execSpec_of_exec (o := .store f j bs) (access_ok hf _)

theorem execSpec_kalloc {Q : Option ℕ → Ram → Prop}
    (hnone : ∀ r', r'.page = r.page → r'.freelist = r.freelist →
      Denies (execSpec (S := sig) (exec L) E) ∨ r'.freelist = [] → Q none r')
    (hsome : ∀ f r', r.Takes f r' → Q (some f) r') : execSpec (S := sig) (exec L) E .kalloc r Q := by
  by_cases hd : r.denied.headD false
  · have he : exec L .kalloc r = .ok (none, { r with denied := r.denied.tail }) := if_pos hd
    by_cases hl : r.freelist = []
    · exact execSpec_of_exec he (hnone _ rfl rfl (.inr hl))
    · refine execSpec_of_exec he (hnone _ rfl rfl (.inl ⟨r, hl, fun h => ?_⟩))
      rw [execSpec, he] at h
      exact h rfl
  · cases hl : r.freelist with
    | nil =>
      have he : exec L .kalloc r = .ok (none, { r with denied := r.denied.tail }) := by rw [exec, if_neg hd, hl]
      exact execSpec_of_exec he (hnone _ rfl rfl (.inr hl))
    | cons f fs =>
      have he : exec L .kalloc r = .ok (some f, { r with freelist := fs, denied := r.denied.tail }) := by
        rw [exec, if_neg hd, hl]
      exact execSpec_of_exec he (hsome f _ ⟨by rw [hl], fun _ _ => rfl⟩)

end ExecSpec

theorem usable_safe {f : ℕ} (hf : f < 57344) : Usable (safe L) r f := usable_of_lt hf

instance (L : Layout) : Grants L (safe L) where
  mono := safe_mono L
  of_safe _ _ _ h := h
  kalloc _ _ hnone hsome := execSpec_kalloc hnone hsome

namespace Grants

variable {Φ : Spec sig Ram} [h : Grants L Φ]

theorem usable (r : Ram) (f : ℕ) (hf : Held L r f) : Usable Φ r f := by
  obtain ⟨hword, hset, hmemset, hstore⟩ := usable_safe (L := L) (r := r) (Layout.frames_lt hf.1)
  exact ⟨fun j Q hQ => h.of_safe _ _ _ (hword j Q hQ), fun j v Q hQ => h.of_safe _ _ _ (hset j v Q hQ),
    fun b Q hQ => h.of_safe _ _ _ (hmemset b Q hQ), fun j bs Q hQ => h.of_safe _ _ _ (hstore j bs Q hQ)⟩

theorem memmove (r : Ram) (f g : ℕ) (Q : Unit → Ram → Prop) (hf : Held L r f) (hg : Held L r g)
    (hQ : Q () (r.setPage f (r.page g))) : Φ (.memmove f g) r Q :=
  h.of_safe _ _ _ (execSpec_of_exec (o := .memmove f g)
    (access_ok (max_lt (Layout.frames_lt hf.1) (Layout.frames_lt hg.1)) _) hQ)

theorem kfree (r : Ram) (f : ℕ) (Q : Unit → Ram → Prop) (hf : Held L r f) (hQ : Q () (r.push f)) :
    Φ (.kfree f) r Q := by
  refine h.of_safe _ _ _ (execSpec_of_exec (o := .kfree f) ?_ hQ)
  rw [exec, if_neg (not_or.mpr ⟨Nat.not_lt.mpr hf.1.1, Nat.not_le.mpr hf.1.2⟩)]

end Grants

section Undenied

def sure (L : Layout) : Spec sig Ram := fun o r Q => r.denied ≠ [] ∨ safe L o r Q

instance (L : Layout) : Grants L (sure L) where
  mono o r Q Q' hQ h := h.imp_right (safe_mono L o r Q Q' hQ)
  of_safe _ _ _ h := .inr h
  kalloc r Q hnone hsome := by
    by_cases hd : r.denied = []
    · cases hl : r.freelist with
      | nil =>
        have he : exec L .kalloc r = .ok (none, { r with denied := r.denied.tail }) := by rw [exec, hd, if_neg (by decide), hl]
        exact .inr (execSpec_of_exec he (hnone _ rfl rfl (.inr hl)))
      | cons f fs =>
        have he : exec L .kalloc r = .ok (some f, { r with freelist := fs, denied := r.denied.tail }) := by
          rw [exec, hd, if_neg (by decide), hl]
        exact .inr (execSpec_of_exec he (hsome f _ ⟨by rw [hl], fun _ _ => rfl⟩))
    · exact .inl hd

theorem not_denies_sure (L : Layout) : ¬ Denies (sure L) := by
  rintro ⟨r, hl, hno⟩
  obtain ⟨hd, hno⟩ := not_or.mp hno
  rw [not_not] at hd
  obtain ⟨f, fs, hl⟩ := List.exists_cons_of_ne_nil hl
  have he : exec L .kalloc r = .ok (some f, { r with freelist := fs, denied := r.denied.tail }) := by
    rw [exec, hd, if_neg (by decide), hl]
  exact hno (execSpec_of_exec he (Option.some_ne_none f))

theorem denies_safe (L : Layout) : Denies (safe L) := by
  refine ⟨{ freelist := [0], denied := [true] }, List.cons_ne_nil _ _, fun h => ?_⟩
  have he : exec L .kalloc { freelist := [0], denied := [true] } = .ok (none, { freelist := [0] }) := rfl
  rw [safe, execSpec, he] at h
  exact h rfl

theorem access_eq {β : Type} {f : ℕ} {x y : β} {r' : Ram} (h : access f (x, r) = .ok (y, r')) : r' = r := by
  unfold access at h
  split_ifs at h
  cases h
  rfl

theorem exec_denied {r' : Ram} {o : Op} {a : o.Res} (he : exec L o r = .ok (a, r')) (hd : r.denied = []) :
    r'.denied = [] := by
  cases o with
  | kalloc =>
    obtain ⟨page, freelist, denied⟩ := r
    obtain rfl : denied = [] := hd
    cases freelist with
    | nil =>
      cases he
      rfl
    | cons f fs =>
      cases he
      rfl
  | kfree f =>
    change (if f * 4096 < L.kend ∨ PHYSTOP ≤ f * 4096 then Except.error (Stop.panic "kfree") else .ok ((), r.push f)) = _ at he
    split_ifs at he
    cases he
    exact hd
  | stop e => cases he
  | word f j => rwa [access_eq he]
  | setWord f j v => rwa [access_eq he]
  | memset f b => rwa [access_eq he]
  | memmove f g => rwa [access_eq he]
  | store f off bs => rwa [access_eq he]

theorem wp_sure {α : Type} {m : Code α} {Q : α → Ram → Prop} (h : wp (sure L) m r Q) (hd : r.denied = []) :
    wp (safe L) m r (fun a r' => Q a r' ∧ r'.denied = []) := by
  induction m generalizing r with
  | ret a => exact ⟨h, hd⟩
  | op o k ih =>
    have hs := h.resolve_left (not_not.mpr hd)
    change safe L o r _
    unfold safe execSpec at hs ⊢
    split
    · next a t he =>
      rw [he] at hs
      exact ih a hs (exec_denied he hd)
    · next e he => rwa [he] at hs

theorem wp_undenied {α : Type} {m : Code α} {Q : Prop → α → Ram → Prop}
    (h : ∀ Φ [Grants L Φ], wp Φ m r (Q (Denies Φ))) :
    wp (safe L) m r (fun a r' => Q (r.denied ≠ []) a r' ∧ (r.denied = [] → r'.denied = [])) := by
  by_cases hd : r.denied = []
  · have hp : (r.denied ≠ []) = Denies (sure L) := propext (iff_of_false (not_not.mpr hd) (not_denies_sure L))
    rw [hp]
    exact wp_mono (safe_mono L) m (fun a r' hQ => ⟨hQ.1, fun _ => hQ.2⟩) (wp_sure (h (sure L)) hd)
  · have hp : (r.denied ≠ []) = Denies (safe L) := propext (iff_of_true hd (denies_safe L))
    rw [hp]
    exact wp_mono (safe_mono L) m (fun a r' hQ => ⟨hQ, fun hd' => absurd hd' hd⟩) (h (safe L))

end Undenied

section Held

variable {L : Layout} {E : Set ℕ} {r : Ram} {d f g : ℕ} {x : Ref}

theorem Held.push (h : Held L r f) (hne : f ≠ g) : Held L (r.push g) f := ⟨h.1, List.not_mem_cons_of_ne_of_not_mem hne h.2⟩

theorem Space.held (h : Space L E r d) (hx : r.refs d x = some f) : Held L r f := ⟨(h.mem hx).1, h.not_free hx⟩

theorem Space.held_of_mem (h : Space L E r d) (hf : f ∈ L.frames) (hE : f ∈ E) : Held L r f := ⟨hf, fun hm => (h.free f hm).2 hE⟩

theorem Space.usable {Φ : Spec sig Ram} [Grants L Φ] (h : Space L E r d) (hx : r.refs d x = some f) : Usable Φ r f := Grants.usable r f (h.held hx)

end Held

section Rules

variable {L : Layout} {Φ : Spec sig Ram} {α : Type} {r : Ram} {Q : α → Ram → Prop} {f j : ℕ} {k : Unit → Code α}

theorem wp_last {o : Op} {Q : o.Res → Ram → Prop} (h : wp Φ (op o >>= pure) r Q) : wp Φ (op o) r Q := h

theorem wp_word {k : UInt32 → Code α} (hf : Usable Φ r f) (h : wp Φ (k (word (r.page f) j)) r Q) :
    wp Φ ((op (.word f j) : Code UInt32) >>= k) r Q := hf.word j _ h

theorem wp_setWord {v : UInt32} (hf : Usable Φ r f) (h : wp Φ (k ()) (r.setPage f (setWord (r.page f) j v)) Q) :
    wp Φ ((op (.setWord f j v) : Code Unit) >>= k) r Q := hf.setWord j v _ h

theorem wp_memset {b : UInt8} (hf : Usable Φ r f) (h : wp Φ (k ()) (r.setPage f (fun _ => b)) Q) :
    wp Φ ((op (.memset f b) : Code Unit) >>= k) r Q := hf.memset b _ h

theorem wp_store {bs : List UInt8} (hf : Usable Φ r f) (h : wp Φ (k ()) (r.setPage f (overwrite (r.page f) j bs)) Q) :
    wp Φ ((op (.store f j bs) : Code Unit) >>= k) r Q := hf.store j bs _ h

theorem wp_kalloc (L : Layout) [h : Grants L Φ] {k : Option ℕ → Code α}
    (hnone : ∀ r', r'.page = r.page → r'.freelist = r.freelist → Denies Φ ∨ r'.freelist = [] → wp Φ (k none) r' Q)
    (hsome : ∀ f r', r.Takes f r' → wp Φ (k (some f)) r' Q) :
    wp Φ ((op .kalloc : Code (Option ℕ)) >>= k) r Q := h.kalloc r _ hnone hsome

variable [Grants L Φ]

theorem wp_memmove {g : ℕ} (hf : Held L r f) (hg : Held L r g) (h : wp Φ (k ()) (r.setPage f (r.page g)) Q) :
    wp Φ ((op (.memmove f g) : Code Unit) >>= k) r Q := Grants.memmove r f g _ hf hg h

theorem wp_kfree (hf : Held L r f) (h : wp Φ (k ()) (r.push f) Q) : wp Φ ((op (.kfree f) : Code Unit) >>= k) r Q :=
  Grants.kfree r f _ hf h

end Rules

structure Turn (L : Layout) (E : Set ℕ) (d : ℕ) (r r' : Ram) : Prop where
  keep : ∀ f, f ∉ L.frames \ E → r'.page f = r.page f
  kernel : ∀ v, 524288 ≤ v → r'.entry d v = r.entry d v
  table : ∀ i t, r.table d i = some t → r'.table d i = some t

namespace Turn

variable {L : Layout} {E : Set ℕ} {d f : ℕ} {r r' r'' : Ram}

theorem refl (L : Layout) (E : Set ℕ) (d : ℕ) (r : Ram) : Turn L E d r r := ⟨fun _ _ => rfl, fun _ _ => rfl, fun _ _ => id⟩

theorem trans (h : Turn L E d r r') (h' : Turn L E d r' r'') : Turn L E d r r'' where
  keep f hf := (h'.keep f hf).trans (h.keep f hf)
  kernel v hv := (h'.kernel v hv).trans (h.kernel v hv)
  table i t ht := h'.table i t (h.table i t ht)

theorem of_same (h : Ram.SameTables r r' d) (hk : ∀ f, f ∉ L.frames \ E → r'.page f = r.page f) : Turn L E d r r' :=
  ⟨hk, fun v _ => by rw [h.entry], fun i t ht => by rwa [h.table]⟩

theorem setPte {t v : ℕ} {w : UInt32} (h : Space L E r d) (ht : r.table d (v / 1024) = some t) (hv : v < 524288) :
    Turn L E d r (r.setPte t v w) where
  keep g hg := Ram.setPage_of_ne r (h.not_mem hg (x := .table (v / 1024)) ht).symm _
  kernel u hu := by
    have hne : u ≠ v := by omega
    rw [h.entry_setPte ht, update_of_ne hne]
  table i u hu := by rwa [h.table_setPte ht]

theorem mono (h : Turn L (insert f E) d r r') : Turn L E d r r' where
  keep g hg := h.keep g (fun hm => hg ⟨hm.1, fun hE => hm.2 (Set.mem_insert_of_mem f hE)⟩)
  kernel := h.kernel
  table := h.table

end Turn

section Walk

variable {L : Layout} {Φ : Spec sig Ram} {E : Set ℕ} {α : Type} {r r' : Ram} {d f t v va : ℕ} {Q : α → Ram → Prop} {k : Option (ℕ × ℕ) → Code α}

theorem pdx_eq (hv : va / 4096 = v) (hlt : v < 1048576) : PDX va = v / 1024 := by
  unfold PDX
  omega

theorem ptx_eq (hv : va / 4096 = v) : PTX va = v % 1024 := by
  unfold PTX
  rw [hv]

theorem table_present {i : ℕ} (hi : i < 1024) (hp : word (r.page d) i &&& PTE_P ≠ 0) : r.table d i = some (frame (word (r.page d) i)) :=
  if_pos ⟨hi, hp⟩

theorem table_absent {i : ℕ} (hp : ¬ word (r.page d) i &&& PTE_P ≠ 0) : r.table d i = none := if_neg (fun h => hp h.2)

theorem wp_walk (hd : Usable Φ r d) (hv : va / 4096 = v) (hlt : v < 1048576) (hnone : r.table d (v / 1024) = none → wp Φ (k none) r Q)
    (hsome : ∀ t, r.table d (v / 1024) = some t → wp Φ (k (some (t, v % 1024))) r Q) :
    wp Φ (walkpgdir d va false >>= k) r Q := by
  refine wp_seq (wp_word hd ?_)
  rw [pdx_eq hv hlt, ptx_eq hv]
  refine wp_cond (fun hp => ?_) (fun hp => ?_)
  · exact hsome _ (table_present (by omega) hp)
  · exact hnone (table_absent hp)

variable [Grants L Φ]

theorem walk_spec (h : Space L E r d) (hv : va / 4096 = v) (hlt : v < 1048576) :
    wp Φ (walkpgdir d va true) r (fun x r' => Space L E r' d ∧ Turn L E d r r' ∧ r'.entry d = r.entry d ∧
      r'.user d = r.user d ∧ (x = none → Denies Φ ∨ r'.freelist = []) ∧
      ∀ y, x = some y → ∃ t, y = (t, v % 1024) ∧ r'.table d (v / 1024) = some t) := by
  have hi : v / 1024 < 1024 := by omega
  refine wp_word (h.usable (x := .dir) rfl) ?_
  rw [pdx_eq hv hlt, ptx_eq hv]
  refine wp_cond (fun hp => ?_) (fun hp => ?_)
  · refine ⟨h, .refl .., rfl, rfl, fun hx => absurd hx (Option.some_ne_none _), ?_⟩
    rintro y ⟨⟩
    exact ⟨_, rfl, table_present hi hp⟩
  · refine wp_kalloc L (fun r1 hp1 hl1 hout => ?_) (fun f r1 htake => ?_)
    · have hsame : Ram.SameTables r r1 d := .of_refs (fun _ g _ => by rw [hp1])
      refine ⟨h.congr hsame hl1, .of_same hsame (fun g _ => by rw [hp1]), hsame.entry,
        Ram.user_congr (fun _ g _ => by rw [hp1]), fun _ => hout, ?_⟩
      rintro y ⟨⟩
    · obtain ⟨h1, hf, hE, hp1⟩ := h.hold htake
      have hsame : Ram.SameTables r r1 d := .of_refs hp1
      obtain ⟨h2, hsame2, huser2⟩ := h1.setPage (fun hm => hm.2 (Set.mem_insert f E)) (fun _ => 0)
      refine wp_memset (Grants.usable r1 f (h1.held_of_mem hf (Set.mem_insert f E))) (wp_setWord (h2.usable (x := .dir) rfl) ?_)
      have hnone : r1.table d (v / 1024) = none := by
        rw [hsame.table]
        exact table_absent hp
      have hw : child (v / 1024) (V2P f ||| PTE_P ||| PTE_W ||| PTE_U) = some f := by
        have hflags : V2P f ||| PTE_P ||| PTE_W ||| PTE_U = V2P f ||| 7 := by rw [UInt32.or_assoc, UInt32.or_assoc]; rfl
        have hf' : f < 1048576 := by
          have := Layout.frames_lt hf
          omega
        rw [child, hflags, frame_V2P_or hf' (by decide), V2P_or_and (by decide)]
        exact if_pos ⟨hi, by decide⟩
      obtain ⟨h3, htable, hentry, huser⟩ := h2.attach hf hE (by rw [hsame2.table, hnone]) hw (Ram.setPage_self ..)
      refine ⟨h3, ⟨fun g hg => ?_, fun u _ => ?_, fun i t ht => ?_⟩, ?_, ?_, fun hx => absurd hx (Option.some_ne_none _), ?_⟩
      · have hgd : g ≠ d := (h.not_mem hg (x := .dir) rfl).symm
        have hgf : g ≠ f := fun e => hg (e ▸ ⟨hf, hE⟩)
        rw [Ram.setPage_of_ne _ hgd, Ram.setPage_of_ne _ hgf, htake.page g hgf]
      · rw [hentry, hsame2.entry, hsame.entry]
      · have hne : i ≠ v / 1024 := by
          rintro rfl
          rw [← hsame.table, hnone] at ht
          cases ht
        rw [htable, update_of_ne hne, hsame2.table, hsame.table, ht]
      · rw [hentry, hsame2.entry, hsame.entry]
      · rw [huser, huser2]
        exact Ram.user_congr hp1
      · rintro y ⟨⟩
        exact ⟨f, rfl, by rw [htable, update_self]⟩

end Walk

section Map

variable {L : Layout} {Φ : Spec sig Ram} [Grants L Φ] {E : Set ℕ} {r r' : Ram} {d f t v a pa last fuel : ℕ} {perm w : UInt32} {Q : ℤ → Ram → Prop}

theorem wp_mappagesLoop (h : Space L E r d) (hv : a / 4096 = v) (hlt : v < 1048576) (hp : r.entry d v &&& PTE_P = 0)
    (hfail : ∀ r', Space L E r' d → Turn L E d r r' → r'.entry d = r.entry d → r'.user d = r.user d →
      Denies Φ ∨ r'.freelist = [] → Q (-1) r')
    (hok : ∀ r' t, Space L E r' d → Turn L E d r r' → r'.entry d = r.entry d → r'.user d = r.user d → r'.table d (v / 1024) = some t →
      wp Φ (if a = last then pure 0 else mappagesLoop d last perm fuel ((a + PGSIZE) % 0x100000000) ((pa + PGSIZE) % 0x100000000))
        (r'.setPte t v (UInt32.ofNat pa ||| perm ||| PTE_P)) Q) :
    wp Φ (mappagesLoop d last perm (fuel + 1) a pa) r Q := by
  refine wp_seq (wp_mono (grants_mono L) _ ?_ (walk_spec h hv hlt))
  rintro x r1 ⟨h1, hturn, hentry, huser, hout, hx⟩
  cases x with
  | none => exact hfail r1 h1 hturn hentry huser (hout rfl)
  | some y =>
    obtain ⟨t, rfl, ht⟩ := hx y rfl
    have htable : Usable Φ r1 t := h1.usable (x := .table (v / 1024)) ht
    refine wp_word htable ?_
    rw [← Ram.entry_of_some ht, hentry]
    refine wp_cond (fun hold => absurd hp hold) (fun _ => wp_setWord htable ?_)
    exact hok r1 t h1 hturn hentry huser ht

theorem entry_not_present (hv : v < 524288) (h : r.refs d (.user v) = none) : r.entry d v &&& PTE_P = 0 := by
  by_contra hp
  rw [Ram.refs, target, if_pos ⟨hv, hp⟩] at h
  cases h

def pte (f : ℕ) (perm : UInt32) : UInt32 := V2P f ||| (perm ||| PTE_P)

theorem or_P_and_P (perm : UInt32) : (perm ||| PTE_P) &&& PTE_P ≠ 0 := by
  rw [← UInt32.toNat_inj.ne, UInt32.toNat_and, UInt32.toNat_or]
  change (perm.toNat ||| 1) &&& 1 ≠ 0
  rw [Nat.and_one_is_mod]
  have := Nat.or_mod_two_eq_one (a := perm.toNat) (b := 1)
  omega

theorem target_pte (hf : f < 1048576) (hv : v < 524288) (hperm : perm.toNat < 4096) : target v (pte f perm) = some f := by
  have hflags : (perm ||| PTE_P).toNat < 4096 := by
    rw [UInt32.toNat_or]
    exact Nat.or_lt_two_pow hperm (show PTE_P.toNat < 2 ^ 12 by decide)
  rw [target, pte, frame_V2P_or hf hflags, V2P_or_and (by decide)]
  exact if_pos ⟨hv, or_P_and_P perm⟩

theorem map_user (h : Space L (insert f E) r d) (hf : f ∈ L.frames) (hE : f ∉ E) (hv : v < 524288) (hnone : r.refs d (.user v) = none)
    (hperm : perm.toNat < 4096) :
    wp Φ (mappages d (v * 4096) 4096 (f * 4096) perm) r (fun x r' =>
      (x = -1 ∧ Space L (insert f E) r' d ∧ Turn L (insert f E) d r r' ∧ r'.user d = r.user d ∧
        (Denies Φ ∨ r'.freelist = [])) ∨
      (x = 0 ∧ Space L E r' d ∧ Turn L E d r r' ∧ r'.user d = update (r.user d) v (some (pte f perm, r.page f)))) := by
  have ha : PGROUNDDOWN (v * 4096) = v * 4096 := by
    unfold PGROUNDDOWN
    omega
  have hlast : PGROUNDDOWN ((v * 4096 + 4096 + 0xFFFFFFFF) % 0x100000000) = v * 4096 := by
    unfold PGROUNDDOWN
    omega
  have hf' : f < 1048576 := by
    have := Layout.frames_lt hf
    omega
  rw [mappages, ha, hlast]
  refine wp_mappagesLoop h (v := v) (by omega) (by omega) (entry_not_present hv hnone) ?_ ?_
  · intro r1 h1 hturn _ huser hout
    exact .inl ⟨rfl, h1, hturn, huser, hout⟩
  · intro r1 t h1 hturn hentry huser ht
    rw [if_pos rfl, UInt32.or_assoc]
    have htarget : target v (pte f perm) = some f := target_pte hf' hv hperm
    have hnone1 : r1.refs d (.user v) = none := by
      rw [Ram.refs, hentry]
      exact hnone
    have hfE : f ∉ L.frames \ insert f E := fun hm => hm.2 (Set.mem_insert f E)
    have hpage : (r1.setPte t v (pte f perm)).page f = r.page f := by
      rw [Ram.setPte, Ram.setPage_of_ne r1 (h1.not_mem hfE (x := .table (v / 1024)) ht).symm, hturn.keep f hfE]
    refine .inr ⟨rfl, h1.grant ht hf hE hv hnone1 htarget, (hturn.trans (.setPte h1 ht hv)).mono, ?_⟩
    change (r1.setPte t v (pte f perm)).user d = _
    rw [h1.user_setPte ht, htarget, Option.map_some, hpage, huser]

end Map

section Dealloc

variable {L : Layout} {Φ : Spec sig Ram} [Grants L Φ] {E : Set ℕ} {r r' : Ram} {d f t v oldsz newsz fuel : ℕ}

theorem unmap (h : Space L E r d) (ht : r.table d (v / 1024) = some t) (hx : r.refs d (.user v) = some f)
    (hr : (r.push f).setPte t v 0 = r') :
    Space L E r' d ∧ Turn L E d r r' ∧ r'.user d = update (r.user d) v none ∧ r'.table d = r.table d := by
  have hv : v < 524288 := by
    by_contra hv
    rw [Ram.refs, target, if_neg (fun hm => hv hm.1)] at hx
    cases hx
  have htf : t ≠ f := by
    rintro rfl
    have hxy : Ref.user v = Ref.table (v / 1024) := h.exact.inj hx ht
    cases hxy
  have hrev := h.revoke ht hx
  have hfE : f ∉ L.frames \ insert f E := fun hm => hm.2 (Set.mem_insert f E)
  have hpage : ∀ g ≠ f, r'.page g = (r.setPte t v 0).page g := by
    intro g hg
    rw [← hr, Ram.setPte, Ram.setPte]
    by_cases e : g = t
    · rw [e, Ram.setPage_self, Ram.setPage_self]
      exact congrArg (fun m => setWord m (v % 1024) 0) (Ram.setPage_of_ne r htf _)
    · rw [Ram.setPage_of_ne _ e, Ram.setPage_of_ne _ e]
      exact Ram.setPage_of_ne r hg _
  have hagree : ∀ x g, (r.setPte t v 0).refs d x = some g → r'.page g = (r.setPte t v 0).page g := fun x g hg => hpage g (hrev.not_mem hfE hg)
  have hsame : Ram.SameTables (r.setPte t v 0) r' d := .of_refs hagree
  refine ⟨hrev.release (h.mem hx).1 (h.mem hx).2 (by rw [← hr]; rfl) hpage, ?_, ?_, hsame.table.trans (h.table_setPte ht)⟩
  · refine Turn.trans (.setPte h ht hv) (.of_same hsame (fun g hg => hpage g ?_))
    rintro rfl
    exact hg (h.exact.mem hx)
  · have hz : target v 0 = none := if_neg (fun hm => hm.2 rfl)
    rw [Ram.user_congr hagree, h.user_setPte ht, hz]
    rfl

theorem user_of_none (h : r.table d (v / 1024) = none) : r.user d v = none := by
  have hz : target v 0 = none := if_neg (fun hm => hm.2 rfl)
  rw [Ram.user, Ram.entry_of_none h, hz]
  rfl

theorem user_of_absent (h : r.entry d v &&& PTE_P = 0) : r.user d v = none := by
  have hz : target v (r.entry d v) = none := if_neg (fun hm => hm.2 h)
  rw [Ram.user, hz]
  rfl

theorem frame_ne_zero (h : f ∈ L.frames) : f ≠ 0 := by
  rintro rfl
  have h1 : L.kend ≤ 0 * 4096 := h.1
  have h2 : 0x100000 < L.data := L.text
  have h3 := L.order
  omega

def pages (sz : ℕ) : ℕ := (sz + 4095) / 4096

theorem pgroundup_eq {sz : ℕ} (h : sz ≤ 0x80000000) : PGROUNDUP sz = pages sz * 4096 := by
  unfold PGROUNDUP pages
  omega

theorem pages_le {sz : ℕ} (h : sz ≤ 0x80000000) : pages sz ≤ 524288 := by
  unfold pages
  omega

theorem lt_pages {sz : ℕ} : v < pages sz ↔ v * 4096 < sz := by
  unfold pages
  omega

def framesOf (u : ℕ → Option (UInt32 × Mem)) (lo size : ℕ) : List ℕ :=
  (List.range' lo (pages size - lo)).filterMap (fun v => (u v).map (fun x => frame x.1))

section FramesOf

variable {u u' : ℕ → Option (UInt32 × Mem)} {lo lo' size : ℕ}

theorem framesOf_of_le (u : ℕ → Option (UInt32 × Mem)) (h : size ≤ lo * 4096) : framesOf u lo size = [] := by
  have hle : pages size ≤ lo := Nat.le_of_not_lt (mt lt_pages.mp (Nat.not_lt.mpr h))
  rw [framesOf, Nat.sub_eq_zero_of_le hle]
  rfl

theorem framesOf_step (u : ℕ → Option (UInt32 × Mem)) (h : lo * 4096 < size) :
    framesOf u lo size = ((u lo).map (fun x => frame x.1)).toList ++ framesOf u (lo + 1) size := by
  have hlt := lt_pages.mpr h
  rw [framesOf, framesOf, show pages size - lo = pages size - (lo + 1) + 1 by omega, List.range'_succ, List.filterMap_cons]
  cases (u lo).map (fun x => frame x.1) with
  | none => rfl
  | some f => rfl

theorem framesOf_skip (hle : lo ≤ lo') (h : ∀ v, lo ≤ v → v < lo' → u v = none) : framesOf u lo size = framesOf u lo' size := by
  induction lo', hle using Nat.le_induction with
  | base => rfl
  | succ n hn ih =>
    rw [ih (fun v h1 h2 => h v h1 (by omega))]
    by_cases hlt : n * 4096 < size
    · rw [framesOf_step u hlt, h n hn (Nat.lt_succ_self n)]
      rfl
    · rw [framesOf_of_le u (by omega), framesOf_of_le u (by omega)]

theorem framesOf_congr (h : ∀ v, lo ≤ v → u' v = u v) : framesOf u' lo size = framesOf u lo size := by
  refine List.filterMap_congr (fun v hv => ?_)
  rw [h v (List.mem_range'_1.mp hv).1]

end FramesOf

def cut (u : ℕ → Option (UInt32 × Mem)) (lo size : ℕ) : ℕ → Option (UInt32 × Mem) := fun v => if lo ≤ v ∧ v * 4096 < size then none else u v

theorem cut_of_le (u : ℕ → Option (UInt32 × Mem)) {lo size : ℕ} (h : size ≤ lo * 4096) : cut u lo size = u := by
  funext v
  exact if_neg (by omega)

theorem cut_step {u u' : ℕ → Option (UInt32 × Mem)} {lo lo' size : ℕ} (hle : lo ≤ lo') (hu : ∀ v, lo ≤ v → v < lo' → u' v = none)
    (hsame : ∀ v, v < lo ∨ lo' ≤ v → u' v = u v) (hsize : ∀ v, lo ≤ v → v < lo' → v * 4096 < size ∨ u v = none) :
    cut u' lo' size = cut u lo size := by
  funext v
  unfold cut
  by_cases h1 : v < lo
  · rw [if_neg (by omega), if_neg (by omega), hsame v (.inl h1)]
  · by_cases h2 : v < lo'
    · rw [if_neg (by omega), hu v (Nat.le_of_not_lt h1) h2]
      rcases hsize v (Nat.le_of_not_lt h1) h2 with h3 | h3
      · rw [if_pos ⟨Nat.le_of_not_lt h1, h3⟩]
      · rw [h3, ite_self]
    · rw [hsame v (.inr (Nat.le_of_not_lt h2))]
      by_cases h3 : v * 4096 < size
      · rw [if_pos ⟨Nat.le_of_not_lt h2, h3⟩, if_pos ⟨by omega, h3⟩]
      · rw [if_neg (fun h => h3 h.2), if_neg (fun h => h3 h.2)]

structure Trimmed (L : Layout) (E : Set ℕ) (d lo size : ℕ) (r r' : Ram) : Prop where
  space : Space L E r' d
  turn : Turn L E d r r'
  table : r'.table d = r.table d
  user : r'.user d = cut (r.user d) lo size
  free : r'.freelist = (framesOf (r.user d) lo size).reverse ++ r.freelist

namespace Trimmed

variable {lo lo' size : ℕ} {r'' : Ram}

theorem refl (h : Space L E r d) (hle : size ≤ lo * 4096) : Trimmed L E d lo size r r := by
  refine ⟨h, .refl .., rfl, (cut_of_le _ hle).symm, ?_⟩
  rw [framesOf_of_le _ hle]
  rfl

theorem skip (h : Trimmed L E d lo' size r r') (hle : lo ≤ lo') (hnone : ∀ v, lo ≤ v → v < lo' → r.user d v = none) :
    Trimmed L E d lo size r r' := by
  refine ⟨h.space, h.turn, h.table, h.user.trans (cut_step hle hnone (fun _ _ => rfl) (fun v h1 h2 => .inr (hnone v h1 h2))), ?_⟩
  rw [framesOf_skip hle hnone]
  exact h.free

theorem step (hu : r'.user d = update (r.user d) v none) (ht : Turn L E d r r') (htable : r'.table d = r.table d)
    (hl : r'.freelist = f :: r.freelist) (hf : (r.user d v).map (fun x => frame x.1) = some f) (hlt : v * 4096 < size)
    (h : Trimmed L E d (v + 1) size r' r'') : Trimmed L E d v size r r'' := by
  have hrest : ∀ u, v + 1 ≤ u → r'.user d u = r.user d u := by
    intro u hle
    rw [hu, update_of_ne (by omega)]
  refine ⟨h.space, ht.trans h.turn, h.table.trans htable, ?_, ?_⟩
  · rw [h.user, hu]
    refine cut_step (Nat.le_succ v) (fun u h1 h2 => ?_) (fun u h1 => ?_) (fun u h1 h2 => ?_)
    · rw [show u = v by omega, update_self]
    · exact update_of_ne (by omega) ..
    · rw [show u = v by omega]
      exact .inl hlt
  · rw [h.free, hl, framesOf_congr hrest, framesOf_step _ hlt, hf, Option.toList_some, List.reverse_append, List.reverse_singleton, List.append_assoc]
    rfl

end Trimmed

theorem deallocuvmLoop_spec (h : Space L E r d) (hold : oldsz ≤ 0x80000000) (hv : v ≤ 524288) (hf : 524288 < fuel + v) :
    wp Φ (deallocuvmLoop d oldsz fuel (v * 4096)) r (fun _ r' => Trimmed L E d v oldsz r r') := by
  induction fuel generalizing r v with
  | zero => omega
  | succ fuel ih =>
    refine wp_cond (fun hlt => ?_) (fun hge => ?_)
    · have hv' : v < 524288 := by omega
      have hnext : (v * 4096 + PGSIZE) % 0x100000000 = (v + 1) * 4096 := by
        change (v * 4096 + 4096) % 4294967296 = _
        omega
      refine wp_walk (h.usable (x := .dir) rfl) (v := v) (by omega) (by omega) (fun hnone => ?_) (fun t ht => ?_)
      · -- the whole table is missing
        have hskip : (((PDX (v * 4096) + 1) * 4194304 % 0x100000000 + 0x100000000 - PGSIZE) % 0x100000000 + PGSIZE) % 0x100000000 =
            (v / 1024 + 1) * 1024 * 4096 := by
          rw [pdx_eq (v := v) (by omega) (by omega)]
          change (((v / 1024 + 1) * 4194304 % 4294967296 + 4294967296 - 4096) % 4294967296 + 4096) % 4294967296 = _
          omega
        have hempty : ∀ u, v ≤ u → u < (v / 1024 + 1) * 1024 → r.user d u = none := by
          intro u h2 h3
          have hu : u / 1024 = v / 1024 := by omega
          rw [← hu] at hnone
          exact user_of_none hnone
        dsimp only
        rw [hskip]
        refine wp_mono (grants_mono L) _ ?_ (ih h (by omega) (by omega))
        intro _ r1 h1
        exact h1.skip (by omega) hempty
      · have htable := h.held (x := .table (v / 1024)) ht
        refine wp_word (Grants.usable r t htable) ?_
        rw [← Ram.entry_of_some ht, hnext]
        refine wp_cond (fun hp => ?_) (fun hp => ?_)
        · have hx : r.refs d (.user v) = some (frame (r.entry d v)) := if_pos ⟨hv', hp⟩
          have hne : t ≠ frame (r.entry d v) := h.exact.ne_of_ref (show Ref.table (v / 1024) ≠ .user v by rintro ⟨⟩) ht hx
          refine wp_cond (fun hz => absurd hz (frame_ne_zero (h.mem hx).1)) (fun _ => wp_kfree (h.held hx) ?_)
          refine wp_setWord (Grants.usable _ t (htable.push hne)) ?_
          generalize hr1 : (r.push (frame (r.entry d v))).setPage t _ = r1
          obtain ⟨h1, hturn, huser, htable1⟩ := unmap h ht hx hr1
          have hfree : r1.freelist = frame (r.entry d v) :: r.freelist := by
            rw [← hr1]
            rfl
          have hframe : (r.user d v).map (fun x => frame x.1) = some (frame (r.entry d v)) := by
            rw [Ram.user, show target v (r.entry d v) = some (frame (r.entry d v)) from hx]
            rfl
          refine wp_mono (grants_mono L) _ ?_ (ih h1 (by omega) (by omega))
          intro _ r2 h2
          exact .step huser hturn htable1 hfree hframe hlt h2
        · refine wp_mono (grants_mono L) _ ?_ (ih h (by omega) (by omega))
          intro _ r2 h2
          refine h2.skip (Nat.le_succ v) (fun u h3 h4 => ?_)
          rw [show u = v by omega]
          exact user_of_absent (not_not.mp hp)
    · exact .refl h (Nat.le_of_not_lt hge)

theorem deallocuvm_trims (h : Space L E r d) (hle : newsz ≤ oldsz) (hold : oldsz ≤ 0x80000000) :
    wp Φ (deallocuvm d oldsz newsz) r (fun x r' => x = newsz ∧ Trimmed L E d (pages newsz) oldsz r r') := by
  refine wp_cond (fun hge => ?_) (fun _ => wp_seq ?_)
  · obtain rfl : oldsz = newsz := Nat.le_antisymm hge hle
    refine ⟨rfl, .refl h ?_⟩
    unfold pages
    omega
  · rw [pgroundup_eq (by omega)]
    refine wp_mono (grants_mono L) _ ?_ (deallocuvmLoop_spec h hold (pages_le (by omega)) (by omega))
    intro _ r1 h1
    exact ⟨rfl, h1⟩

theorem deallocuvm_spec (h : Space L E r d) (hlt : newsz < oldsz) (hold : oldsz ≤ 0x80000000) :
    wp Φ (deallocuvm d oldsz newsz) r (fun x r' =>
      x = newsz ∧ Space L E r' d ∧ Turn L E d r r' ∧ r'.user d = cut (r.user d) (pages newsz) oldsz) := by
  refine wp_mono (grants_mono L) _ ?_ (deallocuvm_trims h hlt.le hold)
  rintro x r1 ⟨rfl, h1⟩
  exact ⟨rfl, h1.space, h1.turn, h1.user⟩

end Dealloc

section Alloc

variable {L : Layout} {Φ : Spec sig Ram} [Grants L Φ] {E : Set ℕ} {r r' : Ram} {d f v oldsz newsz fuel : ℕ}

def Short (denies : Prop) (L : Layout) (E : Set ℕ) (n : ℕ) : Prop := denies ∨ (L.frames \ E).ncard ≤ 1026 + n

theorem Short.mono {D : Prop} {n n' : ℕ} (h : Short D L E n) (hn : n ≤ n') : Short D L E n' :=
  h.imp_right (fun hle => hle.trans (Nat.add_le_add_left hn 1026))

theorem Space.ncard_le {n : ℕ} (h : Space L E r d) (hn : ∀ v, n ≤ v → r.user d v = none) (hl : r.freelist = []) :
    (L.frames \ E).ncard ≤ 1025 + n := by
  classical
  have hsub : L.frames \ E ⊆ ((insert .dir ((Finset.range 1024).image .table ∪ (Finset.range n).image .user) :
      Finset Ref).image (fun x => (r.refs d x).getD 0) : Finset ℕ) := by
    intro f hf
    have hused : f ∉ r.freelist := by
      rw [hl]
      exact List.not_mem_nil
    obtain ⟨x, hx⟩ := (h.exact.used_iff hf).mp hused
    refine Finset.mem_coe.mpr (Finset.mem_image.mpr ⟨x, ?_, by rw [hx]; rfl⟩)
    cases x with
    | dir => exact Finset.mem_insert_self _ _
    | table i =>
      refine Finset.mem_insert_of_mem (Finset.mem_union_left _ (Finset.mem_image_of_mem _ ?_))
      exact Finset.mem_range.mpr (Ram.table_lt hx)
    | user v =>
      refine Finset.mem_insert_of_mem (Finset.mem_union_right _ (Finset.mem_image_of_mem _ (Finset.mem_range.mpr ?_)))
      by_contra hv
      have hnone : r.refs d (.user v) = none := Option.map_eq_none_iff.mp (hn v (Nat.le_of_not_lt hv))
      rw [hnone] at hx
      cases hx
  have hcard := (Set.ncard_le_ncard hsub (Finset.finite_toSet _)).trans_eq (Set.ncard_coe_finset _)
  have h1 := Finset.card_image_le (s := insert .dir ((Finset.range 1024).image .table ∪ (Finset.range n).image .user))
    (f := fun x => (r.refs d x).getD 0)
  have h2 := Finset.card_insert_le Ref.dir ((Finset.range 1024).image .table ∪ (Finset.range n).image .user)
  have h3 := Finset.card_union_le ((Finset.range 1024).image Ref.table) ((Finset.range n).image .user)
  have h4 := Finset.card_image_le (s := Finset.range 1024) (f := Ref.table)
  have h5 := Finset.card_image_le (s := Finset.range n) (f := Ref.user)
  rw [Finset.card_range] at h4 h5
  omega

omit [Grants L Φ] in
theorem Space.short {n : ℕ} (h : Space L E r d) (hn : ∀ v, n ≤ v → r.user d v = none)
    (hout : Denies Φ ∨ r.freelist = []) : Short (Denies Φ) L E n := by
  refine hout.imp_right (fun hl => ?_)
  have := h.ncard_le hn hl
  omega

theorem ncard_insert (L : Layout) (E : Set ℕ) (f : ℕ) : (L.frames \ E).ncard ≤ (L.frames \ insert f E).ncard + 1 := by
  have hsub : L.frames \ E ⊆ insert f (L.frames \ insert f E) := by
    intro g hg
    by_cases e : g = f
    · exact .inl e
    · exact .inr ⟨hg.1, fun hm => hm.elim e hg.2⟩
  have hfin : (insert f (L.frames \ insert f E)).Finite :=
    (((Set.finite_lt_nat 57344).subset (fun g hg => Layout.frames_lt hg)).sdiff).insert f
  exact (Set.ncard_le_ncard hsub hfin).trans (Set.ncard_insert_le f (L.frames \ insert f E))

omit [Grants L Φ] in
theorem Space.short_insert {n : ℕ} (h : Space L (insert f E) r d) (hn : ∀ v, n ≤ v → r.user d v = none)
    (hout : Denies Φ ∨ r.freelist = []) : Short (Denies Φ) L E n := by
  refine hout.imp_right (fun hl => ?_)
  have hle := h.ncard_le hn hl
  have := ncard_insert L E f
  omega

theorem Short.insert {D : Prop} {n : ℕ} (h : Short D L (insert f E) n) : Short D L E (n + 1) := by
  refine h.imp_right (fun hle => ?_)
  have := ncard_insert L E f
  omega

theorem take_page (h : Space L E r d) (ht : r.Takes f r') (m : Mem) : Held L r' f ∧ f ∉ E ∧
    Space L (insert f E) (r'.setPage f m) d ∧ Turn L E d r (r'.setPage f m) ∧ (r'.setPage f m).user d = r.user d := by
  obtain ⟨h1, hf, hE, hp⟩ := h.hold ht
  have hne : ∀ g, g ∉ L.frames \ E → g ≠ f := by
    rintro g hg rfl
    exact hg ⟨hf, hE⟩
  obtain ⟨h2, hsame2, huser2⟩ := h1.setPage (fun hm => hm.2 (Set.mem_insert f E)) m
  refine ⟨h1.held_of_mem hf (Set.mem_insert f E), hE, h2, ?_, huser2.trans (Ram.user_congr hp)⟩
  exact Turn.trans (.of_same (.of_refs hp) (fun g hg => ht.page g (hne g hg))) (.of_same hsame2 (fun g hg => Ram.setPage_of_ne r' (hne g hg) m))

theorem push_page (h : Space L (insert f E) r d) (hf : f ∈ L.frames) (hE : f ∉ E) :
    Space L E (r.push f) d ∧ Turn L E d r (r.push f) ∧ (r.push f).user d = r.user d := by
  have hpage : ∀ g ≠ f, (r.push f).page g = r.page g := fun g hg => Ram.setPage_of_ne r hg _
  have hagree : ∀ x g, r.refs d x = some g → (r.push f).page g = r.page g :=
    fun x g hx => hpage g (h.not_mem (fun hm => hm.2 (Set.mem_insert f E)) hx)
  refine ⟨h.release hf hE rfl hpage, .of_same (.of_refs hagree) (fun g hg => hpage g ?_), Ram.user_congr hagree⟩
  rintro rfl
  exact hg ⟨hf, hE⟩

def Grown (lo size : ℕ) (u u' : ℕ → Option (UInt32 × Mem)) : Prop := ∀ v,
  (lo ≤ v ∧ v * 4096 < size → ∃ f, u' v = some (pte f (PTE_W ||| PTE_U), fun _ => 0)) ∧ (¬ (lo ≤ v ∧ v * 4096 < size) → u' v = u v)

theorem Grown.step {lo size : ℕ} {u u' : ℕ → Option (UInt32 × Mem)} (h : Grown (lo + 1) size (update u lo (some (pte f (PTE_W ||| PTE_U), fun _ => 0))) u')
    (hlt : lo * 4096 < size) : Grown lo size u u' := by
  intro v
  by_cases e : v = lo
  · subst e
    refine ⟨fun _ => ⟨f, ?_⟩, fun hv => absurd ⟨le_refl v, hlt⟩ hv⟩
    rw [(h v).2 (by omega), update_self]
  · refine ⟨fun hv => (h v).1 ⟨by omega, hv.2⟩, fun hv => ?_⟩
    rw [(h v).2 (by omega), update_of_ne e]

theorem cut_update {lo size : ℕ} {u : ℕ → Option (UInt32 × Mem)} {x : Option (UInt32 × Mem)} (hlo : lo ≤ v) (hlt : v * 4096 < size) :
    cut (update u v x) lo size = cut u lo size := by
  funext w
  unfold cut
  by_cases e : w = v
  · subst e
    rw [if_pos ⟨hlo, hlt⟩, if_pos ⟨hlo, hlt⟩]
  · rw [update_of_ne e]

theorem user_eq_none (h : r.user d v = none) : r.refs d (.user v) = none := by
  rw [Ram.user, Option.map_eq_none_iff] at h
  exact h

theorem allocuvmLoop_spec (h : Space L E r d) (hnew : newsz < 0x80000000) (hold : pages oldsz ≤ v) (hlt : oldsz ≤ newsz)
    (hnone : ∀ u, v ≤ u → u * 4096 < newsz → r.user d u = none) (hf : 524288 < fuel + v) (hv : v ≤ 524288) :
    wp Φ (allocuvmLoop d oldsz newsz fuel (v * 4096)) r (fun x r' => Space L E r' d ∧ Turn L E d r r' ∧
      (x = newsz ∧ Grown v newsz (r.user d) (r'.user d) ∨ x = 0 ∧ r'.user d = cut (r.user d) (pages oldsz) newsz ∧
        ∀ n, pages newsz ≤ n → (∀ u, n ≤ u → r.user d u = none) → Short (Denies Φ) L E n)) := by
  induction fuel generalizing r v with
  | zero => omega
  | succ fuel ih =>
    refine wp_cond (fun hlt' => ?_) (fun hge => ?_)
    · have hv' : v < 524288 := by omega
      have hgt : oldsz < newsz := by
        have hlow : ¬ v * 4096 < oldsz := mt lt_pages.mpr (Nat.not_lt.mpr hold)
        omega
      have hnext : (v * 4096 + PGSIZE) % 0x100000000 = (v + 1) * 4096 := by
        change (v * 4096 + 4096) % 4294967296 = _
        omega
      refine wp_kalloc L (fun r1 hp1 hl1 hout => ?_) (fun f r1 htake => ?_)
      · have hsame : Ram.SameTables r r1 d := .of_refs (fun _ g _ => by rw [hp1])
        have huser1 : r1.user d = r.user d := Ram.user_congr (fun _ g _ => by rw [hp1])
        refine wp_seq (wp_mono (grants_mono L) _ ?_ (deallocuvm_spec (h.congr hsame hl1) hgt hnew.le))
        rintro _ r2 ⟨-, h2, hturn2, huser2⟩
        refine ⟨h2, Turn.trans (.of_same hsame (fun g _ => by rw [hp1])) hturn2, .inr ⟨rfl, ?_, fun n _ hn => ?_⟩⟩
        · rw [huser2, huser1]
        · exact (h.congr hsame hl1).short (by rwa [huser1]) hout
      · obtain ⟨hheld, hE, h2, hturn2, huser2⟩ := take_page h htake (fun _ => 0)
        have hframe := hheld.1
        refine wp_memset (Grants.usable r1 f hheld) (wp_seq ?_)
        generalize hr2 : r1.setPage f (fun _ => 0) = r2 at h2 hturn2 huser2
        have hzero : r2.page f = fun _ => 0 := by rw [← hr2, Ram.setPage_self]
        have hfree : r2.refs d (.user v) = none := user_eq_none (by rw [huser2]; exact hnone v (le_refl v) hlt')
        refine wp_mono (grants_mono L) _ ?_ (map_user h2 hframe hE hv' hfree (by decide))
        rintro x r3 (⟨rfl, h3, hturn3, huser3, hout⟩ | ⟨rfl, h3, hturn3, huser3⟩)
        · refine wp_cond (fun _ => ?_) (fun hx => absurd (by decide) hx)
          refine wp_seq (wp_mono (grants_mono L) _ ?_ (deallocuvm_spec h3 hgt hnew.le))
          rintro _ r4 ⟨-, h4, hturn4, huser4⟩
          obtain ⟨h5, hturn5, huser5⟩ := push_page h4 hframe hE
          refine wp_kfree (h4.held_of_mem hframe (Set.mem_insert f E))
            ⟨h5, ((hturn2.trans hturn3.mono).trans hturn4.mono).trans hturn5, .inr ⟨rfl, ?_, fun n _ hn => ?_⟩⟩
          · rw [huser5, huser4, huser3, huser2]
          · exact h3.short_insert (by rwa [huser3, huser2]) hout
        · refine wp_cond (fun hx => absurd hx (by decide)) (fun _ => ?_)
          rw [hnext]
          rw [hzero, huser2] at huser3
          refine wp_mono (grants_mono L) _ ?_ (ih h3 (by omega) (fun u h4 h5 => ?_) (by omega) (by omega))
          · rintro x r4 ⟨h4, hturn4, hx⟩
            refine ⟨h4, (hturn2.trans hturn3).trans hturn4, ?_⟩
            rw [huser3] at hx
            rcases hx with ⟨rfl, hgrown⟩ | ⟨rfl, hcut, hshort⟩
            · exact .inl ⟨rfl, hgrown.step hlt'⟩
            · refine .inr ⟨rfl, hcut.trans (cut_update hold hlt'), fun n hle hn => hshort n hle (fun u hu => ?_)⟩
              have hvn := lt_pages.mpr hlt'
              rw [update_of_ne (by omega)]
              exact hn u hu
          · rw [huser3, update_of_ne (by omega)]
            exact hnone u (by omega) h5
    · refine ⟨h, .refl .., .inl ⟨rfl, fun u => ⟨fun hu => ?_, fun _ => rfl⟩⟩⟩
      omega

theorem allocuvm_spec (h : Space L E r d) (hnew : newsz < 0x80000000) (hle : oldsz ≤ newsz)
    (hnone : ∀ u, pages oldsz ≤ u → u * 4096 < newsz → r.user d u = none) :
    wp Φ (allocuvm d oldsz newsz) r (fun x r' => Space L E r' d ∧ Turn L E d r r' ∧
      (x = newsz ∧ Grown (pages oldsz) newsz (r.user d) (r'.user d) ∨ x = 0 ∧ r'.user d = r.user d ∧
        ∀ n, pages newsz ≤ n → (∀ u, n ≤ u → r.user d u = none) → Short (Denies Φ) L E n)) := by
  refine wp_cond (fun hge => absurd hnew (Nat.not_lt.mpr hge)) (fun _ => wp_cond (fun hlt => absurd hle (Nat.not_le.mpr hlt)) (fun _ => ?_))
  rw [pgroundup_eq (by omega)]
  refine wp_mono (grants_mono L) _ ?_ (allocuvmLoop_spec h hnew (le_refl _) hle hnone (by omega) (pages_le (by omega)))
  rintro x r1 ⟨h1, hturn, hx⟩
  refine ⟨h1, hturn, hx.imp_right (And.imp_right (And.imp_left (fun hcut => hcut.trans ?_)))⟩
  -- there was nothing to cut
  funext v
  unfold cut
  split_ifs with hv
  · exact (hnone v hv.1 hv.2).symm
  · rfl

end Alloc

end EnhancedXv6.Vm
