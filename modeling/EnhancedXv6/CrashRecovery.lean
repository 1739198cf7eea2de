import EnhancedXv6.LogHistory
import EnhancedXv6.LogOps
import EnhancedXv6.LogSafe

namespace EnhancedXv6.LogDisk

open Transition Machine RedoLog Counting

variable {P : Type*} [Fintype P] {L : Layout} {disk : ℕ → Block}

def Sound (L : Layout) (disk : ℕ → Block) (s : State P) (h : Past P) : Prop :=
  ∃ V, Good L s V ∧ Safe L V s.cache.disk s.log.lh (h.committedContents disk) (h.workingContents disk) s.phase ∧
    Fits L s.log.lh ∧ Recorded s h

namespace Sound

variable {s t : State P} {h : Past P}

theorem quiet {V : ℕ → Block} (hs : Safe L V s.cache.disk s.log.lh (h.committedContents disk)
      (h.workingContents disk) s.phase) (hf : Fits L s.log.lh) (hr : Recorded s h) (hg : Good L t V)
    (hdisk : t.cache.disk = s.cache.disk) (hlh : t.log.lh = s.log.lh) (hphase : t.phase = s.phase)
    (hop : ∀ p, (t.proc p).inOp = (s.proc p).inOp) : Sound L disk t h :=
  ⟨V, hg, by rw [hdisk, hlh, hphase]; exact hs, by rwa [hlh], hr.congr hop (fun hc => by rwa [hphase])⟩

theorem not_inOp {V : ℕ → Block} (hg : Good L s V) (h0 : s.log.outstanding = 0) (p : P) : (s.proc p).inOp = false := by
  have := total_eq_zero_iff.1 (hg.outstanding.symm.trans h0) p
  simpa [Proc.active] using this

theorem crash (hs : Sound L disk s h) [DecidableEq P] :
    Sound L disk (State.boot L s.cache.disk : State P) (h.record s .crash (State.boot L s.cache.disk)) := by
  obtain ⟨V, hg, hsafe, hf, hr⟩ := hs
  refine ⟨s.cache.disk, good_boot _, ?_, ⟨by simp [State.boot], by simp [State.boot]⟩, hr.nextTxn (fun _ => rfl)⟩
  rw [Past.record, Past.workingContents_nextTxn disk hr]
  exact hsafe.crash hf

theorem installStep {r : Bool} {tail : ℕ} (hs : Sound L disk s h) (hphase : s.phase = .install r tail)
    (hstep : s.installStep r tail = some t) : Sound L disk t h := by
  obtain ⟨V, hg, hsafe, hf, hr⟩ := hs
  have h0 : s.log.outstanding = 0 := by
    by_contra hne
    simp [hg.idle hne] at hphase
  rw [hphase] at hsafe
  have hup := hg.committing
  have hdown := hg.down
  rw [hphase] at hup hdown
  unfold State.installStep at hstep
  rw [hg.start] at hstep
  split at hstep
  case h_1 b hb =>
    obtain ⟨c, hc, rfl⟩ := Option.map_eq_some_iff.1 hstep
    have hsends := Sends.installTrans hg.shows hc
    obtain ⟨htail, -⟩ := List.getElem?_eq_some_iff.1 hb
    have hsync := hg.synced (L.not_home_slot (htail.trans_le hf.length))
    refine ⟨_, hg.sends s.log.lh hsends h0 ?_ ?_, ?_, hf, hr.congr (fun _ => rfl) ?_⟩
    · cases r <;> simp_all [Phase.isUp]
    · cases r <;> simp_all [Phase.isUp]
    · dsimp only
      rw [hsends.disk]
      exact hsafe.install hf hb hsync
    · cases r <;> simp [hphase, Phase.isCommitted]
  case h_2 hend =>
    obtain ⟨c, hc, rfl⟩ := Option.map_eq_some_iff.1 hstep
    have hsends := Sends.writeHead hg.shows hc
    refine ⟨_, hg.sends [] hsends h0 ?_ ?_, ?_, ⟨by simp, by simp⟩, hr.congr (fun _ => rfl) ?_⟩
    · cases r <;> simp_all [Phase.isUp]
    · cases r <;> simp_all [Phase.isUp]
    · dsimp only
      rw [hsends.disk]
      exact hsafe.erase hend _
    · cases r <;> simp [hphase, Phase.isCommitted]

variable [DecidableEq P]

theorem recover (hs : Sound L disk s h) (hstep : s.recover = some t) : Sound L disk t (h.record s .recover t) := by
  unfold State.recover at hstep
  split at hstep
  case h_1 hphase =>
    obtain ⟨V, hg, hsafe, hf, hr⟩ := hs
    obtain ⟨⟨lh, c⟩, hc, rfl⟩ := Option.map_eq_some_iff.1 hstep
    obtain ⟨h0, hcom⟩ := hg.down (by rw [hphase]; rfl)
    obtain ⟨hshows, hdisk, htidy, rfl⟩ := readHead_spec hg.shows hc
    rw [hphase] at hsafe
    obtain ⟨hsafe', hf'⟩ := hsafe.readHead
    rw [hg.start]
    refine ⟨V, hg.tidy htidy hshows rfl rfl rfl (fun hne => absurd h0 hne) (by simp [Phase.isUp]) (fun _ => ⟨h0, hcom⟩),
      ?_, hf', hr.congr (fun _ => rfl) (by simp [hphase, Phase.isCommitted])⟩
    dsimp only
    rw [hdisk]
    exact hsafe'
  case h_2 tail hphase => exact hs.installStep hphase hstep
  case h_3 => cases hstep

theorem commit (hs : Sound L disk s h) (hstep : s.commit = some t) : Sound L disk t (h.record s .commit t) := by
  unfold State.commit at hstep
  split at hstep
  case h_1 tail hphase =>
    obtain ⟨V, hg, hsafe, hf, hr⟩ := hs
    have h0 : s.log.outstanding = 0 := by
      by_contra hne
      simp [hg.idle hne] at hphase
    have hup := hg.committing
    rw [hphase] at hsafe hup
    rw [hg.start] at hstep
    split at hstep
    case h_1 b hb =>
      obtain ⟨c, hc, rfl⟩ := Option.map_eq_some_iff.1 hstep
      have hsends := Sends.writeLog hg.shows hc
      simp only [Past.record, hphase]
      refine ⟨_, hg.sends s.log.lh hsends h0 (by simp_all [Phase.isUp]) (by simp [Phase.isUp]), ?_, hf,
        hr.congr (fun _ => rfl) (by simp [hphase, Phase.isCommitted])⟩
      dsimp only
      rw [hsends.disk]
      exact hsafe.writeLog hf hb
    case h_2 hend =>
      obtain ⟨c, hc, rfl⟩ := Option.map_eq_some_iff.1 hstep
      have hsends := Sends.writeHead hg.shows hc
      simp only [Past.record, hphase]
      refine ⟨_, hg.sends s.log.lh hsends h0 (by simp_all [Phase.isUp]) (by simp [Phase.isUp]), ?_, hf,
        hr.commitTxn (not_inOp hg h0) (fun _ => rfl) rfl⟩
      dsimp only
      rw [hsends.disk, Past.committedContents_commitTxn, Past.workingContents_commitTxn]
      exact hsafe.writeHead hf hend _
  case h_2 tail hphase =>
    have hrec : h.record s .commit t = h := by simp [Past.record, hphase]
    rw [hrec]
    exact hs.installStep hphase hstep
  case h_3 hphase =>
    obtain ⟨V, hg, hsafe, hf, hr⟩ := hs
    have h0 : s.log.outstanding = 0 := by
      by_contra hne
      simp [hg.idle hne] at hphase
    have hnone := not_inOp hg h0
    obtain rfl := by simpa using hstep
    rw [hphase] at hsafe
    obtain ⟨ho, hlh⟩ := hsafe
    simp only [Past.record, hphase]
    refine ⟨V, hg.tidy ⟨fun _ => id, fun _ => rfl, fun _ h => ⟨h, rfl⟩, fun _ _ => ⟨rfl, id⟩⟩ hg.shows rfl rfl rfl
      (fun hne => absurd h0 hne) (by simp) (by simp [Phase.isUp]), ?_, hf,
      hr.finishTxn (by rw [hphase]; rfl) hnone (fun _ => rfl)⟩
    rw [Past.committedContents_finishTxn, Past.workingContents_finishTxn disk hr]
    exact ⟨ho.head, fun b hb => by rw [ho.disk b hb, ho.same b hb (by simp [hlh])], ho.view, fun _ _ _ => rfl⟩
  case h_4 => cases hstep

theorem beginOp (hs : Sound L disk s h) {p : P} (hruns : s.Runs p) (hstep : s.beginOp p = some t) :
    Sound L disk t (h.record s (.beginOp p) t) := by
  obtain ⟨V, hg, hsafe, hf, hr⟩ := hs
  have hg' := hg.beginOp hruns hstep
  unfold State.beginOp at hstep
  split_ifs at hstep with hout
  obtain ⟨log, hlog, rfl⟩ := Option.map_eq_some_iff.1 hstep
  obtain ⟨hc, -, rfl⟩ := Log.beginOp_eq_some hlog
  have hphase := (hg.committing hruns.1).1 hc
  refine ⟨V, hg', ?_, hf, hr.beginOp (fun q hq => by simp [State.setProc, hq]) hout (by simp [State.setProc]) hphase⟩
  rw [Past.committedContents, Past.contents_beginOp disk hr, Past.workingContents, Past.contents_beginOp disk hr]
  exact hsafe

theorem logWrite (hs : Sound L disk s h) {p : P} (hcap : s.InCapacity (.logWrite p)) (hstep : s.logWrite p = some t) :
    Sound L disk t (h.record s (.logWrite p) t) := by
  obtain ⟨V, hg, hsafe, hf, hr⟩ := hs
  obtain ⟨i, hi, hb, hphase, hg', hdisk, hlh, hphase'⟩ := hg.logWrite hstep
  have hop := (hg.passed p i hi).2.1
  have hsame : ∀ q, (t.proc q).inOp = (s.proc q).inOp := by
    intro q
    obtain rfl := by simpa [State.logWrite, hi] using hstep
    by_cases hq : q = p
    · subst hq
      simp [State.setProc]
    · simp [State.setProc, hq]
  simp only [Past.record, hi]
  obtain ⟨hC, hW⟩ := Past.contents_logWrite disk hr hop (by rw [hphase]; rfl)
    ⟨h.op p, (s.cache.buf i).blockno, (s.cache.buf i).data⟩ rfl
  refine ⟨_, hg', ?_, ?_, hr.logWrite hop _ rfl hsame hphase'⟩
  · rw [hC, hW, hdisk, hphase', hphase]
    rw [hphase] at hsafe
    exact Open.logWrite hsafe _ (fun c => by rw [hlh]; exact Log.mem_logWrite)
  · constructor
    · have hlen := hf.length
      have hroom := hcap i hi
      rw [hg.size] at hroom
      rw [hlh]
      unfold Log.logWrite Layout.room at *
      split_ifs with hmem
      · exact hlen
      · have := hroom hmem
        simp only [List.length_append, List.length_singleton]
        omega
    · intro b hbm
      rw [hlh, Log.mem_logWrite] at hbm
      rcases hbm with hbm | rfl
      · exact hf.home b hbm
      · exact hb

theorem endOp (hs : Sound L disk s h) {p : P} (hruns : s.Runs p) (hstep : s.endOp p = some t) :
    Sound L disk t (h.record s (.endOp p) t) := by
  obtain ⟨V, hg, hsafe, hf, hr⟩ := hs
  obtain ⟨hg', hcache, hlh, -, hphase⟩ := hg.endOp hruns hstep
  unfold State.endOp at hstep
  split_ifs at hstep with hguard
  have hidle := hg.idle_of_inOp hguard.1
  rw [hidle] at hsafe
  have hproc : t.proc = Function.update s.proc p { s.proc p with inOp := false } := by
    split at hstep
    · obtain rfl := by simpa using hstep
      rfl
    · cases hstep
  refine ⟨V, hg', ?_, by rwa [hlh], hr.endOp hguard.1 (fun q hq => by simp [hproc, hq]) (by simp [hproc]) hidle⟩
  rw [hcache, hlh]
  rcases hphase with hsame | ⟨-, -, hstart⟩
  · rw [hsame, hidle]
    exact hsafe
  · rw [hstart]
    split_ifs with hnil
    · exact ⟨hsafe, hnil⟩
    · exact ⟨hsafe, fun _ ht => absurd ht (Nat.not_lt_zero _)⟩

theorem step {l : Label P} (hs : Sound L disk s h) (hcap : s.InCapacity l) (hstep : s.step L l = some t) :
    Sound L disk t (h.record s l t) := by
  cases l with
  | beginOp p =>
    obtain ⟨hruns, hstep⟩ := by simpa [State.step] using hstep
    exact hs.beginOp hruns hstep
  | bget p b =>
    obtain ⟨hruns, hstep⟩ := by simpa [State.step] using hstep
    obtain ⟨V, hg, hsafe, hf, hr⟩ := hs
    obtain ⟨hg', hdisk⟩ := hg.bget hruns hstep
    obtain ⟨r, -, rfl⟩ := Option.map_eq_some_iff.1 hstep
    refine quiet hsafe hf hr hg' hdisk rfl rfl (fun q => ?_)
    by_cases hq : q = p
    · subst hq
      simp [State.setProc]
    · simp [State.setProc, hq]
  | bread p =>
    obtain ⟨-, hstep⟩ := by simpa [State.step] using hstep
    obtain ⟨V, hg, hsafe, hf, hr⟩ := hs
    obtain ⟨hg', hdisk⟩ := hg.bread hstep
    unfold State.bread at hstep
    split at hstep
    case h_2 => cases hstep
    case h_1 i hi =>
      split_ifs at hstep
      obtain rfl := by simpa using hstep
      refine quiet hsafe hf hr hg' hdisk rfl rfl (fun q => ?_)
      by_cases hq : q = p
      · subst hq
        simp [State.setProc]
      · simp [State.setProc, hq]
  | change p i d =>
    obtain ⟨-, hstep⟩ := by simpa [State.step] using hstep
    obtain ⟨V, hg, hsafe, hf, hr⟩ := hs
    have hg' := hg.change hstep
    unfold State.change at hstep
    split_ifs at hstep
    obtain rfl := by simpa using hstep
    exact quiet hsafe hf hr hg' rfl rfl rfl (fun _ => rfl)
  | logCheck p i =>
    obtain ⟨-, hstep⟩ := by simpa [State.step] using hstep
    obtain ⟨V, hg, hsafe, hf, hr⟩ := hs
    have hg' := hg.logCheck hstep
    unfold State.logCheck at hstep
    split_ifs at hstep
    split at hstep
    case h_2 => cases hstep
    case h_1 =>
      obtain rfl := by simpa using hstep
      refine quiet hsafe hf hr hg' rfl rfl rfl (fun q => ?_)
      by_cases hq : q = p
      · subst hq
        simp [State.setProc]
      · simp [State.setProc, hq]
  | logWrite p =>
    obtain ⟨-, hstep⟩ := by simpa [State.step] using hstep
    exact hs.logWrite hcap hstep
  | brelse p i =>
    obtain ⟨hruns, hstep⟩ := by simpa [State.step] using hstep
    obtain ⟨V, hg, hsafe, hf, hr⟩ := hs
    have hg' := hg.brelse hruns hstep
    unfold State.brelse at hstep
    split_ifs at hstep
    obtain rfl := by simpa using hstep
    exact quiet hsafe hf hr hg' rfl rfl rfl (fun _ => rfl)
  | endOp p =>
    obtain ⟨hruns, hstep⟩ := by simpa [State.step] using hstep
    exact hs.endOp hruns hstep
  | commit => exact hs.commit hstep
  | recover => exact hs.recover hstep
  | crash =>
    obtain rfl := by simpa [State.step] using hstep
    exact hs.crash

end Sound

variable [DecidableEq P]

theorem reachable_sound {x : State P × Past P}
    (hr : (pastMachine P L disk).ReachableWhere (fun x l => x.1.InCapacity l) x) : Sound L disk x.1 x.2 := by
  refine hr.invariant (P := fun x => Sound L disk x.1 x.2) ?_ ?_
  · rintro ⟨s, h⟩ ⟨⟨rfl, hhead⟩, rfl⟩
    refine ⟨disk, good_boot disk, ⟨?_, ?_, fun _ _ => rfl, fun _ => rfl⟩, ⟨by simp [State.boot], by simp [State.boot]⟩, ?_⟩
    · simp only [State.boot, hhead, covers_nil]
      exact fun _ _ => rfl
    · simp [State.boot, hhead]
    · constructor <;> simp [State.boot]
  · intro x l y _ hs hcap hn
    obtain ⟨hnext, hpast⟩ := history_next hn
    rw [hpast]
    exact hs.step hcap hnext

theorem disk_eq_committedContents (L : Layout) (disk : ℕ → Block) (s : State P) (h : Past P)
    (hr : (pastMachine P L disk).ReachableWhere (fun x l => x.1.InCapacity l) (s, h)) (hidle : s.phase = .idle) :
    (∀ b, L.Home b → s.cache.disk b = h.committedContents disk b) ∧
      (∀ o < h.begun, h.committed (h.txnOf o) → h.ended o) ∧ ∀ t, h.returned t → h.committed t := by
  obtain ⟨V, -, hsafe, -, hrec⟩ := reachable_sound hr
  dsimp only at hsafe hrec
  rw [hidle] at hsafe
  exact ⟨hsafe.disk, hrec.whole, hrec.returned⟩

instance (s : State P) (l : Label P) : Decidable (s.InCapacity l) := by
  unfold State.InCapacity
  split <;> infer_instance

theorem disk_eq_committedContents_crash : ∃ (s : State (Fin 1)) (h : Past (Fin 1)), s.cache.disk 40 0 = 7 ∧
    h.returned 0 = false ∧ ∀ b, (⟨2, 30, by decide⟩ : Layout).Home b → s.cache.disk b = h.committedContents (fun _ _ => 0) b := by
  have hrun : ((pastMachine (Fin 1) ⟨2, 30, by decide⟩ (fun _ _ => 0)).runWhere (fun x l => x.1.InCapacity l)
      (.boot ⟨2, 30, by decide⟩ (fun _ _ => 0), {})
      [.recover, .recover, .beginOp 0, .bget 0 40, .bread 0, .change 0 ⟨1, by decide⟩ (fun _ => 7),
        .logCheck 0 ⟨1, by decide⟩, .logWrite 0, .brelse 0 ⟨1, by decide⟩, .endOp 0, .commit, .commit, .crash,
        .recover, .recover, .crash, .recover, .recover, .recover]).any (fun x =>
        x.1.phase = .idle ∧ x.1.cache.disk 40 0 = 7 ∧ x.2.returned 0 = false) := by decide +kernel
  obtain ⟨⟨s, h⟩, hr, hp⟩ := exists_reachableWhere (by exact ⟨⟨rfl, rfl⟩, rfl⟩) hrun
  obtain ⟨hidle, h40, hret⟩ := of_decide_eq_true hp
  exact ⟨s, h, h40, hret, (disk_eq_committedContents _ _ s h hr hidle).1⟩

end EnhancedXv6.LogDisk
