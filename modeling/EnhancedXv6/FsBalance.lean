import EnhancedXv6.FsCache
import EnhancedXv6.FsHands
import EnhancedXv6.Interleaving

namespace EnhancedXv6.Fs

open Function (update update_eq_self update_of_ne update_self)
open Command Counting

variable {P : Type} {N : ℕ}

def inFile (ip : Ip) (f : File) : ℕ := if f.kind = .inode ip then 1 else 0

structure Balanced [Fintype P] (s : State P N) (gs : P → Hand) : Prop where
  cwd : ∀ p, s.cwd p = (gs p).cwd
  ofile : ∀ p, s.ofile p = (gs p).ofile
  file : ∀ f, (s.file f).ref = total (fun g => g.files.count f) gs
  inode : ∀ ip, s.ref ip = total (fun g => g.inodes.count ip) gs + total (inFile ip) s.file
  unused : ∀ f, (s.file f).ref = 0 → (s.file f).kind = .none
  unique : s.Unique
  ops : s.outstanding = total (fun g => g.ops) gs
  fresh : ∀ p, ∀ f ∈ (gs p).fresh, f ∈ (gs p).files ∧ (s.file f).kind = .none
  apart : ∀ p q f, f ∈ (gs p).fresh → f ∈ (gs q).fresh → p = q
  gone : ∀ p, (gs p).cwd = none → (gs p).Idle ∧ (gs p).files = 0

namespace Balanced

variable [Fintype P] {s t : State P N} {gs : P → Hand} {p : P} {ip : Ip} {f : Fin NFILE} {g' : Hand}

theorem same (h : Balanced s gs) (hfile : t.file = s.file) (hcwd : t.cwd = s.cwd) (hofile : t.ofile = s.ofile)
    (href : t.ref = s.ref) (hinum : t.inum = s.inum) (hops : t.outstanding = s.outstanding) : Balanced t gs := by
  refine ⟨?_, ?_, ?_, ?_, ?_, ?_, ?_, ?_, h.apart, h.gone⟩
  · rw [hcwd]; exact h.cwd
  · rw [hofile]; exact h.ofile
  · rw [hfile]; exact h.file
  · rw [hfile, href]; exact h.inode
  · rw [hfile]; exact h.unused
  · rw [State.Unique, href, hinum]; exact h.unique
  · rw [hops]; exact h.ops
  · rw [hfile]; exact h.fresh

theorem ref_pos (h : Balanced s gs) (hi : ip ∈ (gs p).inodes) : 0 < s.ref ip := by
  have hle := le_total (fun g : Hand => g.inodes.count ip) gs p
  have hpos := Multiset.count_pos.mpr hi
  rw [h.inode]
  omega

theorem opened (h : Balanced s gs) (hf : (s.file f).kind = .inode ip) : 0 < s.ref ip := by
  have hle := le_total (inFile ip) s.file f
  rw [inFile, if_pos hf] at hle
  rw [h.inode]
  omega

theorem file_pos (h : Balanced s gs) (hf : f ∈ (gs p).files) : 0 < (s.file f).ref := by
  have hle := le_total (fun g : Hand => g.files.count f) gs p
  have hpos := Multiset.count_pos.mpr hf
  rw [h.file]
  omega

theorem not_fresh (h : Balanced s gs) (hf : f ∈ (gs p).fresh) {q : P} (hq : q ≠ p) :
    f ∉ (gs q).fresh := fun hfq => hq (h.apart q p f hfq hf)

variable [DecidableEq P]

theorem step (h : Balanced s gs) (hcwd : t.cwd = update s.cwd p g'.cwd)
    (hofile : t.ofile = update s.ofile p g'.ofile)
    (hfile : ∀ f, (t.file f).ref + (gs p).files.count f = (s.file f).ref + g'.files.count f)
    (hinode : ∀ ip, t.ref ip + (gs p).inodes.count ip + total (inFile ip) s.file =
      s.ref ip + g'.inodes.count ip + total (inFile ip) t.file)
    (hunused : ∀ f, (t.file f).ref = 0 → (t.file f).kind = .none) (hunique : t.Unique)
    (hops : t.outstanding + (gs p).ops = s.outstanding + g'.ops)
    (hfresh : ∀ f ∈ g'.fresh, f ∈ g'.files ∧ (t.file f).kind = .none ∧ ∀ q, q ≠ p → f ∉ (gs q).fresh)
    (hothers : ∀ q, q ≠ p → ∀ f ∈ (gs q).fresh, (t.file f).kind = .none)
    (hgone : g'.cwd = none → g'.Idle ∧ g'.files = 0) : Balanced t (update gs p g') := by
  refine ⟨?_, ?_, fun f => ?_, fun ip => ?_, hunused, hunique, ?_, ?_, fun a b f => ?_, ?_⟩
  · refine (Function.forall_update_iff gs (fun q g => t.cwd q = g.cwd)).mpr ⟨by simp [hcwd], fun q hq => ?_⟩
    simp [hcwd, hq, h.cwd]
  · refine (Function.forall_update_iff gs (fun q g => t.ofile q = g.ofile)).mpr ⟨by simp [hofile], fun q hq => ?_⟩
    simp [hofile, hq, h.ofile]
  · have hu := total_update (fun g : Hand => g.files.count f) gs p g'
    have hf := hfile f
    have hs := h.file f
    omega
  · have hu := total_update (fun g : Hand => g.inodes.count ip) gs p g'
    have hi := hinode ip
    have hs := h.inode ip
    omega
  · have hu := total_update (fun g : Hand => g.ops) gs p g'
    have hs := h.ops
    omega
  · refine (Function.forall_update_iff gs (fun _ g => ∀ f ∈ g.fresh, f ∈ g.files ∧ (t.file f).kind = .none)).mpr
      ⟨fun f hf => ⟨(hfresh f hf).1, (hfresh f hf).2.1⟩, fun q hq f hf => ⟨(h.fresh q f hf).1, hothers q hq f hf⟩⟩
  · -- a file that is fresh in the new hand of `p` is fresh in no other
    by_cases ha : a = p
    · subst ha
      by_cases hb : b = a
      · exact fun _ _ => hb.symm
      · rw [update_self, update_of_ne hb]
        exact fun hfa hfb => absurd hfb ((hfresh f hfa).2.2 b hb)
    · by_cases hb : b = p
      · subst hb
        rw [update_self, update_of_ne ha]
        exact fun hfa hfb => absurd hfa ((hfresh f hfb).2.2 a ha)
      · rw [update_of_ne ha, update_of_ne hb]
        exact h.apart a b f
  · exact (Function.forall_update_iff gs (fun _ g => g.cwd = none → g.Idle ∧ g.files = 0)).mpr
      ⟨hgone, fun q _ => h.gone q⟩

theorem move (h : Balanced s gs) (hfile : t.file = s.file) (hfiles : g'.files = (gs p).files)
    (hfresh : g'.fresh = (gs p).fresh) (hcwd : t.cwd = update s.cwd p g'.cwd)
    (hofile : t.ofile = update s.ofile p g'.ofile)
    (href : ∀ ip, t.ref ip + (gs p).inodes.count ip = s.ref ip + g'.inodes.count ip) (hunique : t.Unique)
    (hops : t.outstanding + (gs p).ops = s.outstanding + g'.ops)
    (hgone : g'.cwd = none → g'.Idle ∧ g'.files = 0) : Balanced t (update gs p g') := by
  refine h.step hcwd hofile (fun f => ?_) (fun ip => ?_) ?_ hunique hops (fun f hf => ?_) (fun q _ f hf => ?_) hgone
  · rw [hfile, hfiles]
  · have hr := href ip
    rw [hfile]
    omega
  · rw [hfile]
    exact h.unused
  · rw [hfresh] at hf
    rw [hfile, hfiles]
    exact ⟨(h.fresh p f hf).1, (h.fresh p f hf).2, fun q hq => h.not_fresh hf hq⟩
  · rw [hfile]
    exact (h.fresh q f hf).2

theorem setFile (h : Balanced s gs) {new : File} (hcwd : g'.cwd = (gs p).cwd)
    (hofile : g'.ofile = (gs p).ofile) (hops : g'.ops = (gs p).ops) (hp : (gs p).cwd ≠ none)
    (hself : new.ref + (gs p).files.count f = (s.file f).ref + g'.files.count f)
    (hfiles : ∀ x, x ≠ f → g'.files.count x = (gs p).files.count x)
    (hinodes : ∀ ip, (gs p).inodes.count ip + inFile ip (s.file f) = g'.inodes.count ip + inFile ip new)
    (hunused : new.ref = 0 → new.kind = .none)
    (hfresh : ∀ x, x ≠ f → x ∈ g'.fresh → x ∈ (gs p).fresh)
    (hnew : f ∈ g'.fresh → f ∈ g'.files ∧ new.kind = .none ∧ ∀ q, q ≠ p → f ∉ (gs q).fresh)
    (hothers : ∀ q, q ≠ p → f ∈ (gs q).fresh → new.kind = .none) :
    Balanced (s.setFile f new) (update gs p g') := by
  have hat : (s.setFile f new).file f = new := update_self ..
  have hne {x : Fin NFILE} (hx : x ≠ f) : (s.setFile f new).file x = s.file x := update_of_ne hx ..
  refine h.step ?_ ?_ (fun x => ?_) (fun ip => ?_) (fun x => ?_) h.unique ?_ (fun x hx => ?_) (fun q hq x hx => ?_) ?_
  · rw [hcwd, ← h.cwd, update_eq_self]
    rfl
  · rw [hofile, ← h.ofile, update_eq_self]
    rfl
  · by_cases hx : x = f
    · subst hx
      rwa [hat]
    · rw [hne hx, hfiles x hx]
  · have hu := total_update (inFile ip) s.file f new
    have hi := hinodes ip
    change s.ref ip + _ + _ = _ + _ + total (inFile ip) (update s.file f new)
    omega
  · by_cases hx : x = f
    · subst hx
      rwa [hat]
    · rw [hne hx]
      exact h.unused x
  · rw [hops]
    rfl
  · by_cases hxf : x = f
    · subst hxf
      rw [hat]
      exact hnew hx
    · have hold := hfresh x hxf hx
      rw [hne hxf, ← Multiset.count_pos, hfiles x hxf, Multiset.count_pos]
      exact ⟨(h.fresh p x hold).1, (h.fresh p x hold).2, fun q hq => h.not_fresh hold hq⟩
  · by_cases hxf : x = f
    · subst hxf
      rw [hat]
      exact hothers q hq hx
    · rw [hne hxf]
      exact (h.fresh q x hx).2
  · rw [hcwd]
    exact fun hn => absurd hn hp

theorem enter (h : Balanced s gs) (hp : (gs p).cwd ≠ none) :
    Balanced { s with outstanding := s.outstanding + 1 } (update gs p (gs p).enter) := by
  refine h.move rfl rfl rfl ?_ ?_ (fun _ => rfl) h.unique ?_ (fun hn => absurd hn hp)
  · exact (by simp [Hand.enter, ← h.cwd])
  · exact (by simp [Hand.enter, ← h.ofile])
  · simp [Hand.enter]
    omega

theorem leave (h : Balanced s gs) (hp : (gs p).cwd ≠ none) (ho : 0 < (gs p).ops) :
    Balanced { s with outstanding := s.outstanding - 1 } (update gs p (gs p).leave) := by
  refine h.move rfl rfl rfl ?_ ?_ (fun _ => rfl) h.unique ?_ (fun hn => absurd hn hp)
  · exact (by simp [Hand.leave, ← h.cwd])
  · exact (by simp [Hand.leave, ← h.ofile])
  · simp only [Hand.leave]
    omega

theorem take (h : Balanced s gs) (hp : (gs p).cwd ≠ none) {i : Fin N} (hg : Gets s i ip t) :
    Balanced t (update gs p ((gs p).take ip)) := by
  refine h.move hg.file rfl rfl ?_ ?_ (fun jp => ?_) (hg.unique h.unique) ?_ (fun hn => absurd hn hp)
  · simp [Hand.take, ← h.cwd, hg.cwd]
  · simp [Hand.take, ← h.ofile, hg.ofile]
  · by_cases hj : jp = ip
    · subst hj
      simp [Hand.take, hg.ref_self]
      omega
    · simp [Hand.take, hg.ref_of_ne hj, hj]
  · rw [hg.outstanding]
    rfl

theorem idup (h : Balanced s gs) (hp : (gs p).cwd ≠ none) (hi : ip ∈ (gs p).inodes) :
    Balanced (s.idup ip) (update gs p ((gs p).take ip)) :=
  h.take hp (gets_idup (h.ref_pos hi))

theorem drop (h : Balanced s gs) (hp : (gs p).cwd ≠ none) (hi : ip ∈ (gs p).inodes) :
    Balanced (s.deref ip) (update gs p ((gs p).drop ip)) := by
  have hpos := h.ref_pos hi
  have hcount := Multiset.count_pos.mpr hi
  have href (jp : Ip) : (s.deref ip).ref jp + (gs p).inodes.count jp = s.ref jp + ((gs p).drop ip).inodes.count jp := by
    by_cases hj : jp = ip
    · subst hj
      simp only [State.deref, update_self, Hand.drop, Multiset.count_erase_self]
      omega
    · simp [State.deref, Hand.drop, hj]
  refine h.move rfl rfl rfl ?_ ?_ href (fun a b ha hb => h.unique a b ?_ ?_) rfl (fun hn => absurd hn hp)
  · simp [Hand.drop, ← h.cwd, State.deref]
  · simp [Hand.drop, ← h.ofile, State.deref]
  -- an entry that is still in use was in use before
  · by_cases hx : a = ip
    · exact hx ▸ hpos
    · simpa [State.deref, hx] using ha
  · by_cases hx : b = ip
    · exact hx ▸ hpos
    · simpa [State.deref, hx] using hb

theorem setCwd (h : Balanced s gs) {cwd : Option Ip}
    (hgone : cwd = none → ((gs p).setCwd none).Idle ∧ (gs p).files = 0) :
    Balanced (s.setCwd p cwd) (update gs p ((gs p).setCwd cwd)) := by
  refine h.move rfl rfl rfl rfl ?_ (fun _ => rfl) h.unique rfl ?_
  · simp [Hand.setCwd, State.setCwd, ← h.ofile]
  · rintro rfl
    exact hgone rfl

theorem setFd (h : Balanced s gs) (hp : (gs p).cwd ≠ none) (fd : Fin NOFILE) (f : Option (Fin NFILE)) :
    Balanced (s.setFd p fd f) (update gs p ((gs p).setFd fd f)) := by
  refine h.move rfl rfl rfl ?_ ?_ (fun _ => rfl) h.unique rfl (fun hn => absurd hn hp)
  · simp [Hand.setFd, State.setFd, ← h.cwd]
  · simp [Hand.setFd, State.setFd, ← h.ofile]

theorem alloc (h : Balanced s gs) (hp : (gs p).cwd ≠ none) (hf : (s.file f).ref = 0) :
    Balanced (s.setFile f { s.file f with ref := 1 }) (update gs p ((gs p).alloc f)) ∧ f ∉ (gs p).files := by
  have hnone (q : P) : f ∉ (gs q).files := fun hq => by
    have hpos := h.file_pos hq
    omega
  have hkind := h.unused f hf
  refine ⟨h.setFile rfl rfl rfl hp ?_ (fun x hx => ?_) (fun ip => rfl) (fun hz => by cases hz) (fun x hx => ?_) ?_ ?_, hnone p⟩
  · simp [Hand.alloc, hf]
    omega
  · simp [Hand.alloc, hx]
  · simp [Hand.alloc, hx]
  · exact fun _ => ⟨by simp [Hand.alloc], hkind, fun q _ hq => hnone q (h.fresh q f hq).1⟩
  · exact fun _ _ _ => hkind

theorem dup (h : Balanced s gs) (hp : (gs p).cwd ≠ none) (hf : f ∈ (gs p).files) :
    Balanced (s.setFile f { s.file f with ref := (s.file f).ref + 1 }) (update gs p ((gs p).dup f)) := by
  have hpos := h.file_pos hf
  refine h.setFile rfl rfl rfl hp ?_ (fun x hx => ?_) (fun ip => rfl) (fun hz => ?_) (fun x _ hx => hx) ?_ ?_
  · simp [Hand.dup]
    omega
  · simp [Hand.dup, hx]
  · simp at hz
  · exact fun hx => ⟨by simp [Hand.dup], (h.fresh p f hx).2, fun q hq => h.not_fresh hx hq⟩
  · exact fun q _ hx => (h.fresh q f hx).2

theorem fill (h : Balanced s gs) (hp : (gs p).cwd ≠ none) (hf : f ∈ (gs p).fresh) {kind : FileKind}
    (hcwd : g'.cwd = (gs p).cwd) (hofile : g'.ofile = (gs p).ofile) (hops : g'.ops = (gs p).ops)
    (hfiles : g'.files = (gs p).files) (hfresh : g'.fresh = (gs p).fresh.erase f)
    (hinodes : ∀ ip, (gs p).inodes.count ip = g'.inodes.count ip + inFile ip ⟨0, kind⟩) :
    Balanced (s.setFile f { s.file f with kind := kind }) (update gs p g') := by
  obtain ⟨hmem, hkind⟩ := h.fresh p f hf
  have hpos := h.file_pos hmem
  refine h.setFile hcwd hofile hops hp (by rw [hfiles]) (fun x _ => by rw [hfiles]) (fun ip => ?_) (fun hz => ?_)
    (fun x hx => ?_) (fun hx => ?_) (fun q hq hx => absurd hx (h.not_fresh hf hq))
  · have hold : inFile ip (s.file f) = 0 := by simp [inFile, hkind]
    rw [hold]
    exact hinodes ip
  · have hz' : (s.file f).ref = 0 := hz
    omega
  · rw [hfresh]
    exact fun hx' => Finset.mem_of_mem_erase hx'
  · rw [hfresh] at hx
    exact absurd hx (Finset.notMem_erase f _)

theorem put (h : Balanced s gs) (hp : (gs p).cwd ≠ none) (hf : f ∈ (gs p).files)
    (hcwd : g'.cwd = (gs p).cwd) (hofile : g'.ofile = (gs p).ofile) (hops : g'.ops = (gs p).ops)
    (hfiles : g'.files = (gs p).files.erase f) (hfresh : g'.fresh = (gs p).fresh.erase f)
    (hinodes : ∀ ip, g'.inodes.count ip = (gs p).inodes.count ip + inFile ip ⟨0, (s.file f).put.1⟩) :
    Balanced (s.setFile f (s.file f).put.2) (update gs p g') := by
  have hpos := h.file_pos hf
  have hcount := Multiset.count_pos.mpr hf
  have hput : ((s.file f).put.2.ref + 1 = (s.file f).ref) ∧ ((s.file f).put.2.ref = 0 → (s.file f).put.2.kind = .none) ∧
      ((s.file f).kind = .none → (s.file f).put.2.kind = .none) ∧
      ∀ ip, inFile ip (s.file f) = inFile ip ⟨0, (s.file f).put.1⟩ + inFile ip (s.file f).put.2 := by
    unfold File.put
    split_ifs with hone
    · refine ⟨?_, fun hz => ?_, id, fun ip => ?_⟩
      · dsimp only
        omega
      · dsimp only at hz
        omega
      · simp [inFile]
    · refine ⟨?_, fun _ => rfl, fun _ => rfl, fun ip => ?_⟩
      · dsimp only
        omega
      · simp [inFile]
  obtain ⟨href, hunused, hkind, hin⟩ := hput
  refine h.setFile hcwd hofile hops hp ?_ (fun x hx => ?_) (fun ip => ?_) hunused (fun x _ hx => ?_) (fun hx => ?_)
    (fun q _ hx => hkind (h.fresh q f hx).2)
  · rw [hfiles, Multiset.count_erase_self]
    omega
  · rw [hfiles, Multiset.count_erase_of_ne hx]
  · have hi := hinodes ip
    have hi' := hin ip
    omega
  · rw [hfresh] at hx
    exact Finset.mem_of_mem_erase hx
  · rw [hfresh] at hx
    exact absurd hx (Finset.notMem_erase f _)

theorem fork (h : Balanced s gs) {q : P} {cwd : Ip} (hp : (gs p).cwd = some cwd) (hq : (gs q).cwd = none)
    (hinodes : (gs p).inodes = single (gs p).cwd + single (gs p).cwd)
    (hfiles : (gs p).files = fds (gs p).ofile + fds (gs p).ofile) (hfresh : (gs p).fresh = ∅) (hops : (gs p).ops = 0) :
    Balanced (s.fork p q cwd) (update (update gs p (.rest (gs p).cwd (gs p).ofile)) q
      (.rest (gs p).cwd (gs p).ofile)) := by
  obtain ⟨hidle, hzero⟩ := h.gone q hq
  have hqp : q ≠ p := by
    rintro rfl
    rw [hp] at hq
    cases hq
  set g := Hand.rest (gs p).cwd (gs p).ofile with hg
  have hall {Q : P → Hand → Prop} (hQ : ∀ r, r ≠ p → r ≠ q → Q r (gs r)) (hQp : Q p g) (hQq : Q q g) (r : P) :
      Q r (update (update gs p g) q g r) := by
    by_cases hrq : r = q
    · subst hrq
      rwa [update_self]
    · rw [update_of_ne hrq]
      by_cases hrp : r = p
      · subst hrp
        rwa [update_self]
      · rw [update_of_ne hrp]
        exact hQ r hrp hrq
  have htotal {w : Hand → ℕ} (hwp : w (gs p) = w g + w g) (hwq : w (gs q) = 0) :
      total w (update (update gs p g) q g) = total w gs := by
    have h1 := total_update w gs p g
    have h2 := total_update w (update gs p g) q g
    rw [update_of_ne hqp] at h2
    omega
  refine ⟨?_, ?_, fun f => ?_, fun ip => ?_, h.unused, h.unique, ?_, ?_, fun a b f ha hb => ?_, ?_⟩
  · refine hall (Q := fun r g => (s.fork p q cwd).cwd r = g.cwd) (fun r _ hr => ?_) ?_ ?_
    · simp [State.fork, hr, h.cwd]
    · simp [State.fork, hqp.symm, h.cwd, hg, Hand.rest]
    · simp [State.fork, hg, Hand.rest, hp]
  · refine hall (Q := fun r g => (s.fork p q cwd).ofile r = g.ofile) (fun r _ hr => ?_) ?_ ?_
    · simp [State.fork, hr, h.ofile]
    · simp [State.fork, hqp.symm, h.ofile, hg, Hand.rest]
    · simp [State.fork, hg, Hand.rest, h.ofile]
  · rw [htotal (by simp [hfiles, hg, Hand.rest]) (by simp [hzero])]
    exact h.file f
  · rw [htotal (by simp [hinodes, hg, Hand.rest]) (by simp [hidle.inodes, hq, single])]
    exact h.inode ip
  · rw [htotal (by simp [hops, hg, Hand.rest]) hidle.ops]
    exact h.ops
  · refine hall (Q := fun _ g => ∀ f ∈ g.fresh, f ∈ g.files ∧ ((s.fork p q cwd).file f).kind = .none)
      (fun r _ _ => h.fresh r) ?_ ?_
    · simp [hg, Hand.rest]
    · simp [hg, Hand.rest]
  · have hold {r : P} (hr : f ∈ (update (update gs p g) q g r).fresh) : f ∈ (gs r).fresh := by
      revert hr
      refine hall (Q := fun r g' => f ∈ g'.fresh → f ∈ (gs r).fresh) (fun r _ _ => id) ?_ ?_ r
      · simp [hg, Hand.rest]
      · simp [hg, Hand.rest]
    exact h.apart a b f (hold ha) (hold hb)
  · refine hall (Q := fun _ g => g.cwd = none → g.Idle ∧ g.files = 0) (fun r _ _ => h.gone r) ?_ ?_
    · simp [hg, Hand.rest, hp]
    · simp [hg, Hand.rest, hp]

end Balanced

variable [DecidableEq P] [NeZero N]

theorem passive_same {p : P} {o : Op P} {s t : State P N} {r : o.Res} (ho : o.passive) (h : s.exec p o = .ok (r, t)) :
    t.file = s.file ∧ t.cwd = s.cwd ∧ t.ofile = s.ofile ∧ t.ref = s.ref ∧ t.inum = s.inum ∧
      t.outstanding = s.outstanding := by
  cases o with
  | acquire ip tag =>
    simp only [State.exec, State.acquire] at h
    split_ifs at h <;> cases h
    exact ⟨rfl, rfl, rfl, rfl, rfl, rfl⟩
  | release ip =>
    simp only [State.exec] at h
    split_ifs at h
    cases h
    exact ⟨rfl, rfl, rfl, rfl, rfl, rfl⟩
  | load ip =>
    simp only [State.exec, State.load] at h
    split_ifs at h <;> cases h <;> exact ⟨rfl, rfl, rfl, rfl, rfl, rfl⟩
  | reap ip =>
    cases h
    unfold State.reap
    split_ifs <;> exact ⟨rfl, rfl, rfl, rfl, rfl, rfl⟩
  | type | nlink | isdirempty | dirwrite | dirclear | addlink | droplink | firstlink =>
    cases h
    exact ⟨rfl, rfl, rfl, rfl, rfl, rfl⟩
  | _ => cases ho

theorem balance [Fintype P] {p : P} {o : Op P} {s t : State P N} {gs : P → Hand} {Q : o.Res → Hand → Prop} {r : o.Res}
    (h : Balanced s gs) (hΦ : hands P o (gs p) Q) (he : s.exec p o = .ok (r, t)) :
    ∃ gs', Balanced t gs' ∧ Q r (gs' p) ∧
      ∀ q, q ≠ p → gs' q = gs q ∨ (o = .fork q ∧ (gs q).Gone ∧ (gs' q).Idle) := by
  obtain ⟨hp, hu, hΦ⟩ := hΦ
  have hmove {g' : Hand} (hQ : Q r g') (hb : Balanced t (update gs p g')) :
      ∃ gs', Balanced t gs' ∧ Q r (gs' p) ∧ ∀ q, q ≠ p → gs' q = gs q ∨ (o = .fork q ∧ (gs q).Gone ∧ (gs' q).Idle) :=
    ⟨_, hb, by rwa [update_self], fun q hq => .inl (update_of_ne hq _ _)⟩
  have hsame (hb : Balanced t gs) (hQ : Q r (gs p)) :
      ∃ gs', Balanced t gs' ∧ Q r (gs' p) ∧ ∀ q, q ≠ p → gs' q = gs q ∨ (o = .fork q ∧ (gs q).Gone ∧ (gs' q).Idle) :=
    ⟨gs, hb, hQ, fun q _ => .inl rfl⟩
  have hpassive (ho : o.passive) (hQ : ∀ r, Q r (gs p)) :
      ∃ gs', Balanced t gs' ∧ Q r (gs' p) ∧ ∀ q, q ≠ p → gs' q = gs q ∨ (o = .fork q ∧ (gs q).Gone ∧ (gs' q).Idle) := by
    obtain ⟨h1, h2, h3, h4, h5, h6⟩ := passive_same ho he
    exact hsame (h.same h1 h2 h3 h4 h5 h6) (hQ r)
  cases o with
  | beginOp =>
    cases he
    exact hmove hΦ (h.enter hp)
  | endOp =>
    cases he
    exact hmove hΦ.2 (h.leave hp hΦ.1)
  | deref ip =>
    cases he
    exact hmove hΦ (h.drop hp (hu ip (by simp [Op.uses])))
  | igetRoot => exact hmove (hΦ r) (h.take hp (iget_gets he))
  | idupCwd =>
    simp only [State.exec] at he
    split at he
    · next hcwd =>
      cases he
      obtain ⟨hmem, hQ⟩ := hΦ r (h.cwd p ▸ hcwd)
      exact hmove hQ (h.idup hp hmem)
    · cases he
  | dirlookup dp name =>
    simp only [State.exec] at he
    split_ifs at he
    split at he
    · next i hl =>
      cases hg : s.iget i with
      | error e => simp [hg, Except.map] at he
      | ok x =>
        simp only [hg, Except.map] at he
        cases he
        exact hmove (hΦ.2 x.1) (h.take hp (iget_gets hg))
    · cases he
      exact hsame h hΦ.1
  | ialloc type =>
    simp only [State.exec] at he
    split at he
    · next i hi =>
      have hb : Balanced (s.setInode i { type := type }) gs := h.same rfl rfl rfl rfl rfl rfl
      exact hmove (hΦ r) (hb.take hp (iget_gets he))
    · cases he
  | getCwd =>
    simp only [State.exec] at he
    split at he
    · next hcwd =>
      cases he
      exact hsame h (hΦ r (h.cwd p ▸ hcwd))
    · cases he
  | setCwd ip =>
    cases he
    exact hmove hΦ (h.setCwd (fun hn => by cases hn))
  | clearCwd =>
    cases he
    exact hmove hΦ.2.2 (h.setCwd (fun _ => ⟨hΦ.1, hΦ.2.1⟩))
  | filealloc =>
    simp only [State.exec] at he
    split at he
    · next f hf =>
      cases he
      have hfree : (s.file f).ref = 0 := by simpa using List.find?_some hf
      obtain ⟨hb, hmem⟩ := h.alloc hp hfree
      exact hmove (hΦ.2 f hmem) hb
    · cases he
      exact hsame h hΦ.1
  | filedup f =>
    simp only [State.exec] at he
    split_ifs at he
    cases he
    exact hmove hΦ.2 (h.dup hp hΦ.1)
  | fileput f =>
    obtain ⟨hf, hnone, hpipe, hinode⟩ := hΦ
    simp only [State.exec] at he
    split_ifs at he
    cases he
    have hkinds : (s.file f).put.1 = .none ∨ (s.file f).put.1 = .pipe ∨ ∃ ip, (s.file f).put.1 = .inode ip := by
      cases (s.file f).put.1 <;> simp
    obtain hk | hk | ⟨ip, hk⟩ := hkinds
    · have hQ : Q (s.file f).put.1 ((gs p).put f) := hk ▸ hnone
      exact hmove hQ (h.put hp hf rfl rfl rfl rfl rfl (fun ip => by simp [hk, inFile, Hand.put]))
    · have hQ : Q (s.file f).put.1 ((gs p).put f) := hk ▸ hpipe
      exact hmove hQ (h.put hp hf rfl rfl rfl rfl rfl (fun ip => by simp [hk, inFile, Hand.put]))
    · have hold : f ∉ (gs p).fresh := by
        intro hx
        have hkind := (h.fresh p f hx).2
        simp [File.put, hkind] at hk
        split_ifs at hk
      have hQ : Q (s.file f).put.1 (((gs p).put f).take ip) := hk ▸ hinode hold ip
      refine hmove hQ (h.put hp hf rfl rfl rfl rfl rfl (fun jp => ?_))
      simp [hk, inFile, Hand.put, Hand.take, Multiset.count_cons, eq_comm]
  | setFile f kind =>
    cases he
    cases kind with
    | none =>
      have hQ : Q () ((gs p).fill f) := hΦ.2
      exact hmove hQ (h.fill hp hΦ.1 rfl rfl rfl rfl rfl (fun ip => by simp [inFile, Hand.fill]))
    | pipe =>
      have hQ : Q () ((gs p).fill f) := hΦ.2
      exact hmove hQ (h.fill hp hΦ.1 rfl rfl rfl rfl rfl (fun ip => by simp [inFile, Hand.fill]))
    | inode ip =>
      have hQ : Q () (((gs p).fill f).drop ip) := hΦ.2
      refine hmove hQ (h.fill hp hΦ.1 rfl rfl rfl rfl rfl (fun jp => ?_))
      have hcount := Multiset.count_pos.mpr (hu ip (by simp [Op.uses]))
      by_cases hj : jp = ip
      · subst hj
        simp [inFile, Hand.fill, Hand.drop]
        omega
      · simp [inFile, Hand.fill, Hand.drop, hj, Ne.symm hj]
  | fdalloc f =>
    simp only [State.exec] at he
    split at he
    · next fd hfd =>
      cases he
      have hfree : s.ofile p fd = none := by simpa using List.find?_some hfd
      exact hmove (hΦ.2 fd (h.ofile p ▸ hfree)) (h.setFd hp fd _)
    · cases he
      exact hsame h hΦ.1
  | fdget fd =>
    cases he
    exact hsame h (by rw [h.ofile]; exact hΦ)
  | fdclear fd =>
    cases he
    exact hmove hΦ (h.setFd hp fd _)
  | fork q =>
    obtain ⟨hin, hfiles, hfresh, hops, hQ⟩ := hΦ
    simp only [State.exec] at he
    split at he
    · next cwd hcwd hq =>
      cases he
      rw [h.cwd] at hcwd hq
      have hqp : p ≠ q := by
        rintro rfl
        rw [hcwd] at hq
        cases hq
      refine ⟨_, h.fork hcwd hq hin hfiles hfresh hops, ?_, fun x hx => ?_⟩
      · rwa [update_of_ne hqp, update_self]
      · by_cases hxq : x = q
        · subst hxq
          rw [update_self]
          exact .inr ⟨rfl, hq, rfl, rfl, rfl, rfl⟩
        · rw [update_of_ne hxq, update_of_ne hx]
          exact .inl rfl
    · cases he
  | panic msg => cases he
  | acquire | release | load | reap | type | nlink | isdirempty | dirwrite | dirclear | addlink | droplink | firstlink =>
    exact hpassive rfl hΦ

end EnhancedXv6.Fs
