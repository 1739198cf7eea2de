import EnhancedXv6.Names
import EnhancedXv6.Strings

namespace EnhancedXv6.Names

open Bytes Fs

def ROOTINO : ℕ := 1

def skipelem (path : List UInt8) (name : Mem) : Option (List UInt8 × Mem) :=
  let s := path.dropWhile (· = 47)
  if s = [] then none
  else
    let path := s.dropWhile (· ≠ 47)
    let len := s.length - path.length
    let name :=
      if DIRSIZ ≤ len then splice name 0 DIRSIZ (fun i => s.getD i 0)
      else Function.update (splice name 0 len (fun i => s.getD i 0)) len 0
    some (path.dropWhile (· = 47), name)

def namexLoop (fs : ℕ → Node) (nameiparent : Bool) : ℕ → ℕ → List UInt8 → Mem → Except Stop (Option (ℕ × Mem))
  | 0, _, _, _ => .error .blocked
  | n + 1, ip, path, name => match skipelem path name with
    | none => if nameiparent then .ok none else .ok (some (ip, name))
    | some (path, name) =>
      if (fs ip).type = .free then .error (.panic "ilock: no type")
      else if (fs ip).type ≠ .dir then .ok none
      else if nameiparent ∧ path = [] then .ok (some (ip, name))
      else match (fs ip).dirlookup name with
        | .error e => .error e
        | .ok none => .ok none
        | .ok (some (next, _)) => namexLoop fs nameiparent n next path name

def start (cwd : ℕ) (path : List UInt8) : ℕ := if path.head? = some 47 then ROOTINO else cwd

def namex (fs : ℕ → Node) (cwd : ℕ) (path : List UInt8) (nameiparent : Bool) (name : Mem) : Except Stop (Option (ℕ × Mem)) :=
  namexLoop fs nameiparent (path.length + 1) (start cwd path) path name

/-- `name` is what the buffer on the stack holds before the call. -/
def namei (fs : ℕ → Node) (cwd : ℕ) (path : List UInt8) (name : Mem) : Except Stop (Option ℕ) :=
  (namex fs cwd path false name).map (Option.map Prod.fst)

def nameiparent (fs : ℕ → Node) (cwd : ℕ) (path : List UInt8) (name : Mem) : Except Stop (Option (ℕ × Mem)) :=
  namex fs cwd path true name

def elements : ℕ → List UInt8 → Mem → Option (List Mem)
  | 0, _, _ => none
  | n + 1, path, name => match skipelem path name with
    | none => some []
    | some (path, name) => (elements n path name).map (name :: ·)

section Components

def components (path : List UInt8) : List (List UInt8) := ((path.splitOn 47).filter (· ≠ [])).map (List.take DIRSIZ)

theorem components_slash (path : List UInt8) : components (47 :: path) = components path := by
  have h : (47 :: path).splitOn 47 = [] :: path.splitOn 47 := List.splitOn_append_cons_self_of_not_mem List.not_mem_nil path
  rw [components, h]
  rfl

theorem components_skip (path : List UInt8) : components (path.dropWhile (· = 47)) = components path := by
  induction path with
  | nil => rfl
  | cons c path ih =>
    by_cases hc : c = 47
    · subst hc
      rw [List.dropWhile_cons_of_pos (by decide), components_slash, ih]
    · rw [List.dropWhile_cons_of_neg (by simpa using hc)]

theorem components_append {l r : List UInt8} (hl : 47 ∉ l) (hne : l ≠ []) (hr : r = [] ∨ r.head? = some 47) :
    components (l ++ r) = l.take DIRSIZ :: components r := by
  obtain rfl | hr := hr
  · rw [List.append_nil, components, List.splitOn_eq_singleton hl, List.filter_cons_of_pos (by simpa using hne)]
    rfl
  · cases r with
    | nil => cases hr
    | cons c r =>
      cases hr
      rw [components_slash, components, List.splitOn_append_cons_self_of_not_mem hl, List.filter_cons_of_pos (by simpa using hne)]
      rfl

theorem head_skip (path : List UInt8) : (path.dropWhile (· = 47)).head? ≠ some 47 := by
  induction path with
  | nil =>
    intro h
    cases h
  | cons c path ih =>
    by_cases hc : c = 47
    · rwa [List.dropWhile_cons_of_pos (by simpa using hc)]
    · rw [List.dropWhile_cons_of_neg (by simpa using hc)]
      intro h
      exact hc (Option.some.inj h)

theorem segment_split (s : List UInt8) : ∃ l r, s = l ++ r ∧ 47 ∉ l ∧ (r = [] ∨ r.head? = some 47) ∧ s.dropWhile (· ≠ 47) = r := by
  induction s with
  | nil => exact ⟨[], [], rfl, List.not_mem_nil, .inl rfl, rfl⟩
  | cons c s ih =>
    by_cases hc : c = 47
    · refine ⟨[], c :: s, rfl, List.not_mem_nil, .inr (congrArg some hc), ?_⟩
      rw [List.dropWhile_cons_of_neg (by simpa using hc)]
    · obtain ⟨l, r, rfl, hl, hr, hd⟩ := ih
      refine ⟨c :: l, r, rfl, ?_, hr, ?_⟩
      · intro hm
        obtain rfl | hm := List.mem_cons.mp hm
        · exact hc rfl
        · exact hl hm
      · rw [List.dropWhile_cons_of_pos (by simpa using hc), hd]

theorem segment_of_head {s : List UInt8} (h : s.head? ≠ some 47) (hne : s ≠ []) :
    ∃ l r, s = l ++ r ∧ l ≠ [] ∧ 47 ∉ l ∧ s.dropWhile (· ≠ 47) = r ∧ components s = l.take DIRSIZ :: components r := by
  obtain ⟨l, r, rfl, hl, hr, hd⟩ := segment_split s
  have hlne : l ≠ [] := by
    rintro rfl
    obtain rfl | hr := hr
    · exact hne rfl
    · exact h hr
  exact ⟨l, r, rfl, hlne, hl, hd, components_append hl hlne hr⟩

theorem components_eq_nil {s : List UInt8} (h : s.head? ≠ some 47) : components s = [] ↔ s = [] := by
  constructor
  · intro hc
    by_contra hne
    obtain ⟨l, r, -, -, -, -, he⟩ := segment_of_head h hne
    rw [he] at hc
    cases hc
  · rintro rfl
    rfl

end Components

section Elements

variable {path : List UInt8}

theorem key_element (name : Mem) {l r : List UInt8} (h0 : 0 ∉ l) :
    key (if DIRSIZ ≤ l.length then splice name 0 DIRSIZ (fun i => (l ++ r).getD i 0)
      else Function.update (splice name 0 l.length (fun i => (l ++ r).getD i 0)) l.length 0) 0 = l.take DIRSIZ := by
  have hz : 0 ∉ l.take DIRSIZ := fun hm => h0 (List.mem_of_mem_take hm)
  split_ifs with hlen
  · have hs := holds_splice name 0 (l ++ r) (n := DIRSIZ) (by rw [List.length_append]; omega)
    rw [List.take_append_of_le_length hlen] at hs
    have hk := hs.cString_length hz
    rwa [List.length_take_of_le hlen] at hk
  · have hs := holds_splice name 0 (l ++ r) (n := l.length) (by rw [List.length_append]; omega)
    rw [List.take_left] at hs
    rw [List.take_of_length_le (by omega)]
    have hend : Holds (Function.update (splice name 0 l.length (fun i => (l ++ r).getD i 0)) l.length 0) 0 (l ++ [0]) := by
      apply holds_append.mpr
      rw [Nat.zero_add]
      constructor
      · exact hs.update (.inr (by omega)) 0
      · exact ⟨Function.update_self _ _ _, trivial⟩
    exact hend.cString_eq h0 (by omega)

theorem skipelem_cases (h0 : 0 ∉ path) (name : Mem) : (skipelem path name = none ∧ components path = []) ∨
    ∃ rest name', skipelem path name = some (rest, name') ∧ components path = key name' 0 :: components rest ∧
      rest.length < path.length ∧ 0 ∉ rest ∧ (rest = [] ↔ components rest = []) := by
  have hskip := components_skip path
  have hle := (List.dropWhile_suffix (l := path) (fun c => decide (c = 47))).length_le
  have hzero : 0 ∉ path.dropWhile (· = 47) := fun hm => h0 ((List.dropWhile_suffix _).subset hm)
  by_cases hne : path.dropWhile (· = 47) = []
  · left
    rw [hne] at hskip
    exact ⟨if_pos hne, hskip.symm⟩
  · right
    obtain ⟨l, r, he, hl, hnot, hd, hc⟩ := segment_of_head (head_skip path) hne
    have hlen : (path.dropWhile (· = 47)).length - r.length = l.length := by
      rw [he, List.length_append]
      omega
    have hpos : 0 < l.length := List.length_pos_iff.mpr hl
    have hsuf := List.dropWhile_suffix (l := r) (fun c => decide (c = 47))
    have hrle := hsuf.length_le
    have hs : skipelem path name = some (r.dropWhile (· = 47),
        if DIRSIZ ≤ l.length then splice name 0 DIRSIZ (fun i => (l ++ r).getD i 0)
        else Function.update (splice name 0 l.length (fun i => (l ++ r).getD i 0)) l.length 0) := by
      unfold skipelem
      dsimp only
      rw [if_neg hne, hd, hlen, he]
    rw [he] at hzero
    have hkey := key_element name (r := r) (fun hm => hzero (List.mem_append_left r hm))
    refine ⟨_, _, hs, ?_, ?_, ?_, (components_eq_nil (head_skip r)).symm⟩
    · rw [hkey, components_skip, ← hskip, hc]
    · rw [he, List.length_append] at hle
      omega
    · intro hm
      exact hzero (List.mem_append_right _ (hsuf.subset hm))

theorem elements_spec (h0 : 0 ∉ path) (name : Mem) {n : ℕ} (hn : path.length < n) :
    ∃ names, elements n path name = some names ∧ names.map (fun d => key d 0) = components path := by
  induction n generalizing path name with
  | zero => exact absurd hn (Nat.not_lt_zero _)
  | succ n ih =>
    obtain ⟨hs, hc⟩ | ⟨rest, name', hs, hc, hlt, h0, -⟩ := skipelem_cases h0 name
    · exact ⟨[], by rw [elements, hs], hc.symm⟩
    · obtain ⟨names, he, hm⟩ := ih h0 name' (by omega)
      refine ⟨name' :: names, ?_, ?_⟩
      · rw [elements, hs]
        dsimp only
        rw [he]
        rfl
      · rw [List.map_cons, hm, hc]

end Elements

section Resolution

abbrev Resolution := OptionT (Except Stop)

def directory (fs : ℕ → Node) (ip : ℕ) : Resolution Unit := OptionT.mk
  (if (fs ip).type = .free then .error (.panic "ilock: no type") else if (fs ip).type ≠ .dir then .ok none else .ok (some ()))

def child (fs : ℕ → Node) (ip : ℕ) (k : List UInt8) : Resolution ℕ := do
  directory fs ip
  let (next, _) ← OptionT.mk ((fs ip).lookup k)
  return next

def follow (fs : ℕ → Node) (ip : ℕ) (ks : List (List UInt8)) : Resolution ℕ := ks.foldlM (child fs) ip

def parentOf (fs : ℕ → Node) (ip : ℕ) (ks : List (List UInt8)) : Resolution (ℕ × List UInt8) := match ks.getLast? with
  | none => failure
  | some k => do
    let d ← follow fs ip ks.dropLast
    directory fs d
    return (d, k)

variable {fs : ℕ → Node} {ip : ℕ} {path : List UInt8}

theorem follow_cons (k : List UInt8) (ks : List (List UInt8)) : follow fs ip (k :: ks) = child fs ip k >>= fun next => follow fs next ks :=
  List.foldlM_cons

theorem parentOf_singleton (k : List UInt8) : parentOf fs ip [k] = directory fs ip >>= fun _ => pure (ip, k) := rfl

theorem parentOf_cons_cons (k k' : List UInt8) (ks : List (List UInt8)) :
    parentOf fs ip (k :: k' :: ks) = child fs ip k >>= fun next => parentOf fs next (k' :: ks) := by
  unfold parentOf
  rw [List.getLast?_cons_cons, List.dropLast_cons_cons]
  cases h : (k' :: ks).getLast? with
  | none => cases List.getLast?_eq_none_iff.mp h
  | some x =>
    dsimp only
    rw [follow_cons, bind_assoc]

theorem run_directory_bind {α : Type} (next : Resolution α) : (directory fs ip >>= fun _ => next).run =
    if (fs ip).type = .free then .error (.panic "ilock: no type") else if (fs ip).type ≠ .dir then .ok none else next.run := by
  unfold directory
  split_ifs <;> rfl

theorem run_child_bind {α : Type} (k : List UInt8) (next : ℕ → Resolution α) : (child fs ip k >>= next).run =
    if (fs ip).type = .free then .error (.panic "ilock: no type") else if (fs ip).type ≠ .dir then .ok none
    else match (fs ip).lookup k with
      | .error e => .error e
      | .ok none => .ok none
      | .ok (some (i, _)) => (next i).run := by
  rw [child, bind_assoc, run_directory_bind]
  split_ifs
  · rfl
  · rfl
  · rw [bind_assoc, OptionT.run_bind, OptionT.run_mk]
    cases (fs ip).lookup k with
    | error e => rfl
    | ok r => cases r <;> rfl

theorem namexLoop_false (h0 : 0 ∉ path) (name : Mem) {n : ℕ} (hn : path.length < n) :
    (namexLoop fs false n ip path name).map (Option.map Prod.fst) = (follow fs ip (components path)).run := by
  induction n generalizing ip path name with
  | zero => exact absurd hn (Nat.not_lt_zero _)
  | succ n ih =>
    rw [namexLoop]
    obtain ⟨hs, hc⟩ | ⟨rest, name', hs, hc, hlt, h0, -⟩ := skipelem_cases h0 name
    · rw [hs, hc]
      rfl
    · rw [hs, hc, follow_cons, run_child_bind]
      dsimp only
      split_ifs with hfree hdir hlast
      · rfl
      · rfl
      · exact hlast.1.elim
      · rw [(fs ip).dirlookup_eq (not_not.mp hdir)]
        cases (fs ip).lookup (key name' 0) with
        | error e => rfl
        | ok r =>
          cases r with
          | none => rfl
          | some next => exact ih h0 name' (by omega)

theorem namexLoop_true (h0 : 0 ∉ path) (name : Mem) {n : ℕ} (hn : path.length < n) :
    (namexLoop fs true n ip path name).map (Option.map fun r => (r.1, key r.2 0)) = (parentOf fs ip (components path)).run := by
  induction n generalizing ip path name with
  | zero => exact absurd hn (Nat.not_lt_zero _)
  | succ n ih =>
    rw [namexLoop]
    obtain ⟨hs, hc⟩ | ⟨rest, name', hs, hc, hlt, h0, hlast⟩ := skipelem_cases h0 name
    · rw [hs, hc]
      rfl
    · rw [hs, hc]
      dsimp only
      cases hrest : components rest with
      | nil =>
        rw [parentOf_singleton, run_directory_bind, if_pos (⟨rfl, hlast.mpr hrest⟩ : true = true ∧ rest = [])]
        split_ifs <;> rfl
      | cons k ks =>
        have hne : ¬ (true = true ∧ rest = []) := by
          rintro ⟨-, hnil⟩
          rw [hlast.mp hnil] at hrest
          cases hrest
        rw [parentOf_cons_cons, run_child_bind, if_neg hne]
        split_ifs with hfree hdir
        · rfl
        · rfl
        · rw [(fs ip).dirlookup_eq (not_not.mp hdir)]
          cases (fs ip).lookup (key name' 0) with
          | error e => rfl
          | ok r =>
            cases r with
            | none => rfl
            | some next =>
              rw [← hrest]
              exact ih h0 name' (by omega)

theorem follow_eq_none {ks : List (List UInt8)} : (follow fs ip ks).run = .ok none ↔
    ∃ pre k post d, ks = pre ++ k :: post ∧ (follow fs ip pre).run = .ok (some d) ∧ (fs d).type ≠ .free ∧
      ((fs d).type ≠ .dir ∨ (fs d).lookup k = .ok none) := by
  constructor
  · intro h
    induction ks generalizing ip with
    | nil => cases h
    | cons k ks ih =>
      rw [follow_cons, run_child_bind] at h
      by_cases hfree : (fs ip).type = .free
      · rw [if_pos hfree] at h
        cases h
      · by_cases hdir : (fs ip).type = .dir
        · rw [if_neg hfree, if_neg (not_not.mpr hdir)] at h
          cases hl : (fs ip).lookup k with
          | error e =>
            rw [hl] at h
            cases h
          | ok r =>
            cases r with
            | none => exact ⟨[], k, ks, ip, rfl, rfl, hfree, .inr hl⟩
            | some next =>
              rw [hl] at h
              obtain ⟨pre, k', post, d, rfl, hd, hd'⟩ := ih h
              refine ⟨k :: pre, k', post, d, rfl, ?_, hd'⟩
              rw [follow_cons, run_child_bind, if_neg hfree, if_neg (not_not.mpr hdir), hl]
              exact hd
        · exact ⟨[], k, ks, ip, rfl, rfl, hfree, .inl hdir⟩
  · rintro ⟨pre, k, post, d, rfl, hd, hfree, hk⟩
    have hrest : (follow fs d (k :: post)).run = .ok none := by
      rw [follow_cons, run_child_bind, if_neg hfree]
      split_ifs with hdir
      · rfl
      · rw [hk.resolve_left hdir]
    have happ : follow fs ip (pre ++ k :: post) = follow fs ip pre >>= fun d => follow fs d (k :: post) := List.foldlM_append
    rw [happ, OptionT.run_bind, hd]
    exact hrest

end Resolution

theorem path_resolution (fs : ℕ → Node) (cwd : ℕ) (path : List UInt8) (name : Mem) (h0 : 0 ∉ path) :
    (∃ names, elements (path.length + 1) path name = some names ∧ names.map (fun d => key d 0) = components path) ∧
    namei fs cwd path name = (follow fs (start cwd path) (components path)).run ∧
    (namei fs cwd path name = .ok none ↔ ∃ pre k post d, components path = pre ++ k :: post ∧
      (follow fs (start cwd path) pre).run = .ok (some d) ∧ (fs d).type ≠ .free ∧ ((fs d).type ≠ .dir ∨ (fs d).lookup k = .ok none)) ∧
    (nameiparent fs cwd path name).map (Option.map fun r => (r.1, key r.2 0)) = (parentOf fs (start cwd path) (components path)).run ∧
    ∀ path' name', 0 ∉ path' → components path' = components path → (path'.head? = some 47 ↔ path.head? = some 47) →
      namei fs cwd path' name' = namei fs cwd path name ∧
      (nameiparent fs cwd path' name').map (Option.map fun r => (r.1, key r.2 0)) =
        (nameiparent fs cwd path name).map (Option.map fun r => (r.1, key r.2 0)) := by
  have hnamei {path : List UInt8} (h0 : 0 ∉ path) (name : Mem) :
      namei fs cwd path name = (follow fs (start cwd path) (components path)).run := namexLoop_false h0 name (Nat.lt_succ_self _)
  have hparent {path : List UInt8} (h0 : 0 ∉ path) (name : Mem) :
      (nameiparent fs cwd path name).map (Option.map fun r => (r.1, key r.2 0)) = (parentOf fs (start cwd path) (components path)).run :=
    namexLoop_true h0 name (Nat.lt_succ_self _)
  refine ⟨elements_spec h0 name (Nat.lt_succ_self _), hnamei h0 name, ?_, hparent h0 name, ?_⟩
  · rw [hnamei h0]
    exact follow_eq_none
  · intro path' name' h0' hc hslash
    have hstart : start cwd path' = start cwd path := by
      unfold start
      simp only [hslash]
    rw [hnamei h0', hnamei h0, hparent h0', hparent h0, hstart, hc]
    exact ⟨rfl, rfl⟩

def oneFile (i : ℕ) : Node :=
  if i = ROOTINO then ⟨.dir, 16, fun k => [2, 0, 102].getD k 0⟩ else if i = 2 then ⟨.file, 0, fun _ => 0⟩ else ⟨.free, 0, fun _ => 0⟩

theorem path_resolution_one : namei oneFile 1 [47, 47, 102, 47] (fun _ => 255) = namei oneFile 1 [47, 102] (fun _ => 0) := by
  have h := path_resolution oneFile 1 [47, 102] (fun _ => 0) (by decide)
  obtain ⟨-, -, -, -, h⟩ := h
  exact (h [47, 47, 102, 47] (fun _ => 255) (by decide) rfl (by decide)).1

theorem nameiparent_of_file : components [47, 102, 47, 120] = [[102], [120]] ∧ (follow oneFile ROOTINO [[102]]).run = .ok (some 2) ∧
    (nameiparent oneFile 1 [47, 102, 47, 120] (fun _ => 0)).map (Option.map Prod.fst) = .ok none := by
  refine ⟨rfl, rfl, rfl⟩

end EnhancedXv6.Names
