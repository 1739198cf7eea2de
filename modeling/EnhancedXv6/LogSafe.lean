import EnhancedXv6.LogDisk
import Mathlib.Data.List.Basic
import Mathlib.Logic.Function.Basic

namespace RedoLog

variable {A B : Type*} [DecidableEq A]

def replay (ws : List (A × B)) (d : A → B) : A → B := ws.foldl (fun d w => Function.update d w.1 w.2) d

theorem replay_concat (ws : List (A × B)) (a : A) (b : B) (d : A → B) :
    replay (ws ++ [(a, b)]) d = Function.update (replay ws d) a b := by
  simp [replay]

structure Covers (H : A → Prop) (addr : List A) (w : ℕ → B) (D C : A → B) : Prop where
  home : ∀ a ∈ addr, H a
  slot : ∀ t a, addr[t]? = some a → w t = C a
  rest : ∀ a, H a → a ∉ addr → D a = C a

variable {H : A → Prop} {addr : List A} {w w' : ℕ → B} {D D' C C' : A → B}

omit [DecidableEq A] in
theorem covers_nil : Covers H [] w D C ↔ ∀ a, H a → D a = C a :=
  ⟨fun h a ha => h.rest a ha (by simp), fun h => ⟨by simp, by simp, fun a ha _ => h a ha⟩⟩

omit [DecidableEq A] in
theorem Covers.congr (h : Covers H addr w D C) (hw : ∀ t < addr.length, w' t = w t) (hD : ∀ a, H a → D' a = D a)
    (hC : ∀ a, H a → C' a = C a) : Covers H addr w' D' C' where
  home := h.home
  slot t a ha := by
    obtain ⟨ht, -⟩ := List.getElem?_eq_some_iff.1 ha
    rw [hw t ht, h.slot t a ha, hC a (h.home a (List.mem_of_getElem? ha))]
  rest a ha hn := by rw [hD a ha, hC a ha, h.rest a ha hn]

theorem Covers.write (h : Covers H addr w D C) (a : A) : Covers H addr w (Function.update D a (C a)) C where
  home := h.home
  slot := h.slot
  rest x hx hn := by
    by_cases hxa : x = a
    · subst hxa
      simp
    · rw [Function.update_of_ne hxa]
      exact h.rest x hx hn

def Installed (H : A → Prop) (left : List A) (D C : A → B) : Prop := ∀ a, H a → a ∉ left → D a = C a

theorem Installed.write {a : A} {left : List A} (h : Installed H (a :: left) D C) :
    Installed H left (Function.update D a (C a)) C := by
  intro x hx hn
  by_cases hxa : x = a
  · subst hxa
    simp
  · rw [Function.update_of_ne hxa]
    exact h x hx (by simp [hxa, hn])

end RedoLog

namespace EnhancedXv6.LogDisk

open Function (update update_of_ne update_self)
open RedoLog

theorem decode_encode {lh : List ℕ} (h : lh.length < 128) (d : Block) : decode (encode lh d) = lh := by
  have h0 : encode lh d 0 = lh.length := rfl
  unfold decode
  rw [h0]
  refine List.ext_getElem (by simp) (fun t ht1 ht2 => ?_)
  have hw : (Fin.ofNat 128 (t + 1)).val = t + 1 := Nat.mod_eq_of_lt (by omega)
  have hne : Fin.ofNat 128 (t + 1) ≠ 0 := by
    intro hc
    have := congrArg Fin.val hc
    rw [hw] at this
    simp at this
  simp only [List.getElem_map, List.getElem_range, encode, if_neg hne, hw, Nat.add_sub_cancel]
  rw [List.getElem?_eq_getElem ht2]
  rfl

namespace Layout

variable (L : Layout)

def room : ℕ := min LOGSIZE (L.nlog - 1)

theorem not_home_logstart : ¬ L.Home L.logstart := by
  have := L.pos
  unfold Home
  omega

theorem not_home_slot {t : ℕ} (h : t < L.room) : ¬ L.Home (L.logstart + t + 1) := by
  unfold room at h
  unfold Home
  omega

theorem ne_of_home {a b : ℕ} (ha : L.Home a) (hb : ¬ L.Home b) : a ≠ b := fun hab => hb (hab ▸ ha)

end Layout

structure Open (L : Layout) (V disk : ℕ → Block) (lh : List ℕ) (C W : ℕ → Block) : Prop where
  head : decode (disk L.logstart) = []
  disk : ∀ b, L.Home b → disk b = C b
  view : ∀ b, L.Home b → V b = W b
  same : ∀ b, L.Home b → b ∉ lh → W b = C b

structure Installing (L : Layout) (V disk : ℕ → Block) (lh : List ℕ) (C W : ℕ → Block) (recovery : Bool) (tail : ℕ) :
    Prop where
  head : decode (disk L.logstart) = lh
  covers : Covers L.Home lh (fun t => disk (L.logstart + t + 1)) disk C
  installed : Installed L.Home (lh.drop tail) disk C
  same : ∀ b, L.Home b → W b = C b
  view : ∀ b, L.Home b → V b = if recovery then disk b else W b

def Safe (L : Layout) (V disk : ℕ → Block) (lh : List ℕ) (C W : ℕ → Block) : Phase → Prop
  | .boot => Covers L.Home (decode (disk L.logstart)) (fun t => disk (L.logstart + t + 1)) disk C ∧
      (decode (disk L.logstart)).length ≤ L.room ∧ (∀ b, L.Home b → W b = C b) ∧ ∀ b, V b = disk b
  | .idle => Open L V disk lh C W
  | .writeLog tail => Open L V disk lh C W ∧
      ∀ t < tail, ∀ b, lh[t]? = some b → disk (L.logstart + t + 1) = W b
  | .install recovery tail => Installing L V disk lh C W recovery tail
  | .finish => Open L V disk lh C W ∧ lh = []

structure Fits (L : Layout) (lh : List ℕ) : Prop where
  length : lh.length ≤ L.room
  home : ∀ b ∈ lh, L.Home b

section

variable {L : Layout} {V disk : ℕ → Block} {lh : List ℕ} {C W : ℕ → Block} {tail b : ℕ}

theorem Safe.crash {phase : Phase} (h : Safe L V disk lh C W phase) (hf : Fits L lh) : Safe L disk disk [] C C .boot := by
  have hopen : Open L V disk lh C W → Safe L disk disk [] C C .boot := by
    intro ho
    refine ⟨?_, by simp [ho.head], fun _ _ => rfl, fun _ => rfl⟩
    rw [ho.head, covers_nil]
    exact ho.disk
  cases phase with
  | boot => exact ⟨h.1, h.2.1, fun _ _ => rfl, fun _ => rfl⟩
  | idle => exact hopen h
  | writeLog tail => exact hopen h.1
  | install r tail =>
    refine ⟨?_, ?_, fun _ _ => rfl, fun _ => rfl⟩
    · rw [h.head]
      exact h.covers
    · rw [h.head]
      exact hf.length
  | finish => exact hopen h.1

theorem Open.write_log (h : Open L V disk lh C W) {x : ℕ} {d : Block} (hx : ¬ L.Home x) (hne : x ≠ L.logstart) :
    Open L (update V x d) (update disk x d) lh C W where
  head := by rw [update_of_ne hne.symm, h.head]
  disk b hb := by rw [update_of_ne (L.ne_of_home hb hx), h.disk b hb]
  view b hb := by rw [update_of_ne (L.ne_of_home hb hx), h.view b hb]
  same := h.same

theorem Open.logWrite (h : Open L V disk lh C W) (d : Block) {lh' : List ℕ}
    (hlh : ∀ c, c ∈ lh' ↔ c ∈ lh ∨ c = b) :
    Open L (update V b d) disk lh' C (update W b d) where
  head := h.head
  disk := h.disk
  view c hc := by
    by_cases hcb : c = b
    · subst hcb
      simp
    · rw [update_of_ne hcb, update_of_ne hcb, h.view c hc]
  same c hc hn := by
    rw [hlh, not_or] at hn
    rw [update_of_ne hn.2]
    exact h.same c hc hn.1

theorem Safe.writeLog (h : Safe L V disk lh C W (.writeLog tail)) (hf : Fits L lh) (hb : lh[tail]? = some b) :
    Safe L (update V (L.logstart + tail + 1) (V b)) (update disk (L.logstart + tail + 1) (V b)) lh C W
      (.writeLog (tail + 1)) := by
  obtain ⟨ho, hslots⟩ := h
  obtain ⟨htail, -⟩ := List.getElem?_eq_some_iff.1 hb
  refine ⟨ho.write_log (L.not_home_slot (htail.trans_le hf.length)) (by omega), fun t ht c hc => ?_⟩
  by_cases htt : t = tail
  · subst htt
    obtain rfl : b = c := by simpa [hb] using hc
    rw [update_self, ho.view b (hf.home b (List.mem_of_getElem? hb))]
  · rw [update_of_ne (by omega)]
    exact hslots t (by omega) c hc

theorem Safe.writeHead (h : Safe L V disk lh C W (.writeLog tail)) (hf : Fits L lh) (hend : lh[tail]? = none)
    (v : Block) :
    Safe L (update V L.logstart (encode lh v)) (update disk L.logstart (encode lh v)) lh W W
      (.install false 0) := by
  obtain ⟨ho, hslots⟩ := h
  rw [List.getElem?_eq_none_iff] at hend
  have hdisk : ∀ c, L.Home c → c ∉ lh → disk c = W c := fun c hc hn => by rw [ho.disk c hc, ho.same c hc hn]
  have hhome : ∀ c, L.Home c → c ≠ L.logstart := fun c hc => L.ne_of_home hc L.not_home_logstart
  have hlen := hf.length
  constructor
  case head =>
    rw [update_self]
    refine decode_encode ?_ v
    unfold Layout.room LOGSIZE MAXOPBLOCKS at hlen
    omega
  case covers =>
    refine ⟨hf.home, fun t c hc => ?_, fun c hc hn => ?_⟩
    · obtain ⟨ht, -⟩ := List.getElem?_eq_some_iff.1 hc
      rw [update_of_ne (by omega)]
      exact hslots t (by omega) c hc
    · rw [update_of_ne (hhome c hc)]
      exact hdisk c hc hn
  case installed =>
    intro c hc hn
    rw [update_of_ne (hhome c hc)]
    exact hdisk c hc hn
  case same => exact fun _ _ => rfl
  case view =>
    intro c hc
    rw [update_of_ne (hhome c hc)]
    simpa using ho.view c hc

theorem Safe.install {r : Bool} (h : Safe L V disk lh C W (.install r tail)) (hf : Fits L lh)
    (hb : lh[tail]? = some b) (hsync : V (L.logstart + tail + 1) = disk (L.logstart + tail + 1)) :
    Safe L (update V b (V (L.logstart + tail + 1))) (update disk b (V (L.logstart + tail + 1))) lh C W
      (.install r (tail + 1)) := by
  obtain ⟨htail, hget⟩ := List.getElem?_eq_some_iff.1 hb
  have hbh := hf.home b (List.mem_of_getElem? hb)
  have hslot : V (L.logstart + tail + 1) = C b := by rw [hsync, ← h.covers.slot tail b hb]
  have hdrop : lh.drop tail = b :: lh.drop (tail + 1) := by rw [← hget, List.drop_eq_getElem_cons htail]
  have hinst := h.installed
  rw [hdrop] at hinst
  rw [hslot]
  constructor
  case head => rw [update_of_ne (L.ne_of_home hbh L.not_home_logstart).symm, h.head]
  case covers =>
    refine (h.covers.write b).congr (fun t ht => ?_) (fun _ _ => rfl) (fun _ _ => rfl)
    rw [update_of_ne (L.ne_of_home hbh (L.not_home_slot (ht.trans_le hf.length))).symm]
  case installed => exact hinst.write
  case same => exact h.same
  case view =>
    intro c hc
    by_cases hcb : c = b
    · subst hcb
      cases r <;> simp [h.same c hc]
    · rw [update_of_ne hcb, update_of_ne hcb, h.view c hc]

theorem Safe.erase {r : Bool} (h : Safe L V disk lh C W (.install r tail)) (hend : lh[tail]? = none) (v : Block) :
    Safe L (update V L.logstart (encode [] v)) (update disk L.logstart (encode [] v)) [] C W
      (if r then .idle else .finish) := by
  rw [List.getElem?_eq_none_iff] at hend
  have hhome : ∀ c, L.Home c → c ≠ L.logstart := fun c hc => L.ne_of_home hc L.not_home_logstart
  have hdisk : ∀ c, L.Home c → disk c = C c := fun c hc =>
    h.installed c hc (by simp [List.drop_eq_nil_of_le hend])
  have ho : Open L (update V L.logstart (encode [] v)) (update disk L.logstart (encode [] v)) [] C W := by
    constructor
    case head => rw [update_self, decode_encode (by simp)]
    case disk => exact fun c hc => by rw [update_of_ne (hhome c hc), hdisk c hc]
    case view =>
      intro c hc
      rw [update_of_ne (hhome c hc), h.view c hc, h.same c hc, hdisk c hc]
      simp
    case same => exact fun c hc _ => h.same c hc
  cases r
  · exact ⟨ho, rfl⟩
  · exact ho

theorem Safe.readHead (h : Safe L V disk lh C W .boot) :
    Safe L V disk (decode (V L.logstart)) C W (.install true 0) ∧ Fits L (decode (V L.logstart)) := by
  obtain ⟨hc, hlen, hsame, hview⟩ := h
  rw [hview L.logstart]
  exact ⟨⟨rfl, hc, fun c hch hn => hc.rest c hch (by simpa using hn), hsame, fun c _ => by simp [hview]⟩,
    hlen, hc.home⟩

end

end EnhancedXv6.LogDisk
