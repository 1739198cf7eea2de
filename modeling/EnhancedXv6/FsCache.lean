import EnhancedXv6.Fs

namespace EnhancedXv6.Fs

variable {P : Type} {N : ℕ}

def State.Unique (s : State P N) : Prop :=
  ∀ ip jp, 0 < s.ref ip → 0 < s.ref jp → s.inum ip = s.inum jp → ip = jp

structure Gets (s : State P N) (i : Fin N) (ip : Ip) (t : State P N) : Prop where
  inode : t.inode = s.inode
  lock : t.lock = s.lock
  file : t.file = s.file
  cwd : t.cwd = s.cwd
  ofile : t.ofile = s.ofile
  outstanding : t.outstanding = s.outstanding
  ref : t.ref = Function.update s.ref ip (s.ref ip + 1)
  inum : t.inum = Function.update s.inum ip i
  hit : 0 < s.ref ip → s.inum ip = i ∧ t.valid = s.valid
  miss : s.ref ip = 0 → t.valid = Function.update s.valid ip false ∧ ∀ jp, 0 < s.ref jp → s.inum jp ≠ i

theorem iget_gets {s t : State P N} {i : Fin N} {ip : Ip} (h : s.iget i = .ok (ip, t)) : Gets s i ip t := by
  unfold State.iget at h
  split at h
  · next jp hc =>
    cases h
    have hfound : 0 < s.ref ip ∧ s.inum ip = i := by simpa using List.find?_some hc
    refine ⟨rfl, rfl, rfl, rfl, rfl, rfl, rfl, ?_, fun _ => ⟨hfound.2, rfl⟩, fun hz => ?_⟩
    · rw [← hfound.2, Function.update_eq_self]
      rfl
    · omega
  · next hc =>
    have hnone : ∀ jp, 0 < s.ref jp → s.inum jp ≠ i := by
      intro jp hj
      simpa [hj] using List.find?_eq_none.mp hc jp (List.mem_finRange jp)
    split at h
    · next jp he =>
      cases h
      have hempty : s.ref ip = 0 := by simpa using List.find?_some he
      refine ⟨rfl, rfl, rfl, rfl, rfl, rfl, ?_, rfl, fun hz => ?_, fun _ => ⟨rfl, hnone⟩⟩
      · rw [hempty]
        rfl
      · omega
    · cases h

theorem gets_idup {s : State P N} {ip : Ip} (h : 0 < s.ref ip) : Gets s (s.inum ip) ip (s.idup ip) := by
  refine ⟨rfl, rfl, rfl, rfl, rfl, rfl, rfl, ?_, fun _ => ⟨rfl, rfl⟩, fun hz => ?_⟩
  · rw [Function.update_eq_self]
    rfl
  · omega

theorem iget_error {s : State P N} {i : Fin N} {e : Stop} (h : s.iget i = .error e) : e = .panic "iget: no inodes" := by
  unfold State.iget at h
  split at h
  · cases h
  · split at h <;> cases h
    rfl

namespace Gets

variable {s t : State P N} {i : Fin N} {ip jp : Ip}

theorem inum_self (h : Gets s i ip t) : t.inum ip = i := by rw [h.inum, Function.update_self]

theorem ref_self (h : Gets s i ip t) : t.ref ip = s.ref ip + 1 := by rw [h.ref, Function.update_self]

theorem ref_of_ne (h : Gets s i ip t) (hj : jp ≠ ip) : t.ref jp = s.ref jp := by rw [h.ref, Function.update_of_ne hj]

theorem inum_of_live (h : Gets s i ip t) (hj : 0 < s.ref jp) : t.inum jp = s.inum jp := by
  by_cases he : jp = ip
  · subst he
    rw [h.inum_self, (h.hit hj).1]
  · rw [h.inum, Function.update_of_ne he]

theorem valid_of_live (h : Gets s i ip t) (hj : 0 < s.ref jp) : t.valid jp = s.valid jp := by
  by_cases hz : s.ref ip = 0
  · have hne : jp ≠ ip := by
      rintro rfl
      omega
    rw [(h.miss hz).1, Function.update_of_ne hne]
  · rw [(h.hit (Nat.pos_of_ne_zero hz)).2]

theorem unique (h : Gets s i ip t) (hs : s.Unique) : t.Unique := by
  -- an entry other than `ip` that stands for `i` would have been found
  have hother : ∀ jp, jp ≠ ip → 0 < t.ref jp → t.inum jp ≠ i := by
    intro jp hj hpos hi
    rw [h.ref_of_ne hj] at hpos
    rw [h.inum_of_live hpos] at hi
    by_cases hz : s.ref ip = 0
    · exact (h.miss hz).2 jp hpos hi
    · have hlive := Nat.pos_of_ne_zero hz
      exact hj (hs jp ip hpos hlive (hi.trans (h.hit hlive).1.symm))
  intro a b ha hb hab
  by_cases hai : a = ip
  · by_contra hne
    subst hai
    exact hother b (Ne.symm hne) hb (hab.symm.trans h.inum_self)
  · by_cases hbi : b = ip
    · subst hbi
      exact absurd (hab.trans h.inum_self) (hother a hai ha)
    · rw [h.ref_of_ne hai] at ha
      rw [h.ref_of_ne hbi] at hb
      rw [h.inum_of_live ha, h.inum_of_live hb] at hab
      exact hs a b ha hb hab

end Gets

end EnhancedXv6.Fs
