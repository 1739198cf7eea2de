import EnhancedXv6.ExecRuns

namespace EnhancedXv6.Vm

open Command Bytes Ownership
open ProcTable (Slot)

variable {L : Layout} {E : Set ℕ} {r : Ram} {d sz esp : ℕ} {args : List (List UInt8)} {ptrs : List ℕ}

def acceptedFrom (d : Mem) (sz uargv : ℕ) : ℕ → ℕ → Option (List (List UInt8))
  | 0, _ => none
  | n + 1, i => match fetchint d sz ((uargv + 4 * i) % 0x100000000) with
    | none => none
    | some uarg =>
      if uarg = 0 then some []
      else (fetchstr d sz uarg).bind (fun s => (acceptedFrom d sz uargv n (i + 1)).map (s :: ·))

theorem fetchArgs_spec {d : Mem} {uargv n i : ℕ} {argv : Argv} (hlen : i + n = argv.length) :
    wp (safe L) (fetchArgs d sz uargv (n + 1) i argv) r (fun x r' => r' = r ∧
      (acceptedFrom d sz uargv n i = none ∧ x = none ∨ ∃ args rest, acceptedFrom d sz uargv n i = some args ∧ args.length < n ∧
        x = some (argv.take i ++ args.map some ++ none :: rest))) := by
  induction n generalizing i argv with
  | zero => exact wp_cond (fun _ => ⟨rfl, .inl ⟨rfl, rfl⟩⟩) (fun hlt => absurd (Nat.le_of_eq hlen.symm) hlt)
  | succ n ih =>
    refine wp_cond (fun hge => by omega) (fun _ => ?_)
    have hi : i < argv.length := by omega
    unfold acceptedFrom
    cases fetchint d sz ((uargv + 4 * i) % 0x100000000) with
    | none => exact ⟨rfl, .inl ⟨rfl, rfl⟩⟩
    | some uarg =>
      dsimp only
      by_cases h0 : uarg = 0
      · rw [if_pos h0, if_pos h0]
        refine wp_put hi ⟨rfl, .inr ⟨[], argv.drop (i + 1), rfl, Nat.succ_pos n, ?_⟩⟩
        rw [List.set_eq_take_append_cons_drop, if_pos hi, List.map_nil, List.append_nil]
      · rw [if_neg h0, if_neg h0]
        cases fetchstr d sz uarg with
        | none => exact ⟨rfl, .inl ⟨rfl, rfl⟩⟩
        | some s =>
          refine wp_put hi (wp_mono (safe_mono L) _ ?_ (ih (by rw [List.length_set]; omega)))
          rintro x r' ⟨rfl, ⟨hnone, rfl⟩ | ⟨args, rest, hsome, hlt, rfl⟩⟩
          · refine ⟨rfl, .inl ⟨?_, rfl⟩⟩
            rw [Option.bind_some, hnone]
            rfl
          · refine ⟨rfl, .inr ⟨s :: args, rest, ?_, Nat.succ_lt_succ hlt, ?_⟩⟩
            · rw [Option.bind_some, hsome]
              rfl
            · rw [List.take_add_one, List.take_set_of_le (le_refl i), List.getElem?_set_self hi]
              simp

theorem le_of_pairwise {l : List (ℕ × List UInt8)} {low top : ℕ} (hmod : ∀ x ∈ l, x.1 % 4 = 0) (ht : top % 4 = 0) (hle : low ≤ top)
    (hin : ∀ x ∈ l, low ≤ x.1 ∧ x.1 + (x.2.length + 1) ≤ top) (hp : l.Pairwise (fun x y => y.1 + (y.2.length + 1) ≤ x.1)) :
    low + (l.map (fun x => (x.2.length + 4) / 4 * 4)).sum ≤ top := by
  induction l generalizing top with
  | nil => exact hle
  | cons x l ih =>
    obtain ⟨hx, hp⟩ := List.pairwise_cons.mp hp
    obtain ⟨h1, h2⟩ := hin x List.mem_cons_self
    have hxm := hmod x List.mem_cons_self
    have hrest := ih (fun y hy => hmod y (List.mem_cons_of_mem x hy)) hxm h1
      (fun y hy => ⟨(hin y (List.mem_cons_of_mem x hy)).1, hx y hy⟩) hp
    rw [List.map_cons, List.sum_cons]
    omega

theorem ArgStack.fits (h : ArgStack r d sz esp args ptrs) (hsz : sz % 4 = 0) : stackSize args ≤ 4096 := by
  have hlen := h.strings.length_eq
  have hsnd : (ptrs.zip args).map Prod.snd = args := List.map_snd_zip (Nat.le_of_eq hlen)
  obtain ⟨h1, h2, h3⟩ := h.inside
  have hsum := le_of_pairwise (fun x hx => h.aligned.2 x.1 (List.of_mem_zip hx).1) hsz h2 h3 h.apart
  have hmap : (ptrs.zip args).map (fun x => (x.2.length + 4) / 4 * 4) = args.map (fun s => (s.length + 4) / 4 * 4) := by
    conv_rhs => rw [← hsnd, List.map_map]
    rfl
  rw [hmap] at hsum
  unfold stackSize padded
  omega

namespace Kernel

variable {k k' : Kernel} {p : Slot} {namei : List UInt8 → Option (List UInt8)}

def acceptedArgs (k : Kernel) (p : Slot) : Option (List (List UInt8)) :=
  let d : Mem := fun a => (k.ram.byte (k.task p).pgdir a).getD 0
  (fetchint d (k.task p).sz (((word (k.ram.page (k.task p).kstack) 1022).toNat + 8) % 0x100000000)).bind
    (fun uargv => acceptedFrom d (k.task p).sz uargv MAXARG 0)

theorem sysExec_spec (h : Running L E k p) (hfiles : ∀ path file, namei path = some file → file.length < 0x100000000)
    (hargs : ∀ args, k.acceptedArgs p = some args → ∀ s ∈ args, s.length < 0x1000000) :
    Returns (k.sysExec L p namei) (fun x => x.1 = -1 ∨ x.1 = 0 ∧ ∃ args path file elf esp, k.acceptedArgs p = some args ∧ args.length < MAXARG ∧
      Executed L E p path file elf args esp k x.2) := by
  have hstack := Layout.frames_lt h.stack.1
  have hword : wp (safe L) (op (.word (k.task p).kstack 1022) : Code UInt32) k.ram (fun x r' => x = word (k.ram.page (k.task p).kstack) 1022 ∧ r' = k.ram) :=
    wp_last (wp_word (usable_safe hstack) ⟨rfl, rfl⟩)
  refine Returns.bind (call_returns hword) ?_
  rintro ⟨x, k1⟩ ⟨r1, -, rfl, rfl⟩
  unfold acceptedArgs at hargs ⊢
  dsimp only at hargs ⊢
  generalize hd : (fun a => (k.ram.byte (k.task p).pgdir a).getD 0 : Mem) = d at hargs ⊢
  cases (fetchint d (k.task p).sz (((word (k.ram.page (k.task p).kstack) 1022).toNat + 4) % 0x100000000)).bind (fetchstr d (k.task p).sz) with
  | none => exact .ok (.inl rfl)
  | some path =>
    cases hu : fetchint d (k.task p).sz (((word (k.ram.page (k.task p).kstack) 1022).toNat + 8) % 0x100000000) with
    | none => exact .ok (.inl rfl)
    | some uargv =>
      rw [hu, Option.bind_some] at hargs
      refine Returns.bind (call_returns (fetchArgs_spec (n := 32) (List.length_replicate ..).symm)) ?_
      rintro ⟨y, k2⟩ ⟨r2, hk2, hr2, hy⟩
      dsimp only at hk2 hr2
      obtain rfl : k2 = k := by rw [hk2, hr2]
      rcases hy with ⟨-, rfl⟩ | ⟨args, rest, hargs', hlt, rfl⟩
      · exact .ok (.inl rfl)
      · dsimp only
        rw [List.take_zero, List.nil_append]
        cases hname : namei path with
        | none => exact .ok (.inl rfl)
        | some file =>
          refine (exec_spec h (hfiles path file hname) (hargs args hargs')).mono ?_
          rintro ⟨ret, k'⟩ (⟨hret, -⟩ | ⟨hret, elf, esp, hx⟩)
          · exact .inl hret
          · exact .inr ⟨hret, args, path, file, elf, esp, hargs', hlt, hx⟩

theorem sysExec_argument_stack (L : Layout) (E : Set ℕ) (k : Kernel) (p : Slot)
    (namei : List UInt8 → Option (List UInt8)) (h : Running L E k p)
    (hfiles : ∀ path file, namei path = some file → file.length < 0x100000000)
    (hargs : ∀ args, k.acceptedArgs p = some args → ∀ s ∈ args, s.length < 0x1000000) :
    ∃ ret k', k.sysExec L p namei = .ok (ret, k') ∧ (ret = -1 ∨ ret = 0 ∧ ∃ args ptrs,
      k.acceptedArgs p = some args ∧ args.length < MAXARG ∧ stackSize args ≤ PGSIZE ∧
      ArgStack k'.ram (k'.task p).pgdir (k'.task p).sz (word (k'.ram.page (k'.task p).kstack) 1022).toNat args ptrs) := by
  obtain ⟨⟨ret, k'⟩, hexec, hx⟩ := sysExec_spec h hfiles hargs
  refine ⟨ret, k', hexec, hx.imp_right ?_⟩
  rintro ⟨hret, args, path, file, elf, esp, hargs', hlt, hx⟩
  obtain ⟨ptrs, hptrs⟩ := hx.built.stack
  have hsz := hx.built.size
  have hb := hx.built.extent_lt
  have hkstack : (k'.task p).kstack = (k.task p).kstack := by rw [hx.task, Function.update_self]
  have hesp : (word (k'.ram.page (k'.task p).kstack) 1022).toNat = esp := by
    have hle := hptrs.inside.2.1
    rw [hkstack, hx.frame, word_setWord_self, UInt32.toNat_ofNat_of_lt']
    change esp < 4294967296
    omega
  rw [hesp]
  exact ⟨hret, args, ptrs, hargs', hlt, hptrs.fits (by omega), hptrs⟩

def lsCall : Mem := fun a =>
  ([(4, 64), (8, 16), (16, 64), (20, 68), (64, 108), (65, 115), (68, 45), (69, 108)].lookup a).getD 0

theorem lsCall_zero {a : ℕ} (ha : 70 ≤ a) : lsCall a = 0 := by
  unfold lsCall
  have hne : ∀ b < 70, (a == b) = false := fun b hb => beq_false_of_ne (by omega)
  simp only [List.lookup_cons, List.lookup_nil, hne 4 (by decide), hne 8 (by decide), hne 16 (by decide),
    hne 20 (by decide), hne 64 (by decide), hne 65 (by decide), hne 68 (by decide), hne 69 (by decide), Option.getD_none]

theorem lsProcess_memory : (fun a => ((spare 56828 lsCall).byte 57341 a).getD 0 : Mem) = lsCall := by
  obtain ⟨-, huser⟩ := spare_space (n := 56828) (E := {57340}) lsCall (by decide) (fun f => by
    rw [Set.mem_singleton_iff]
    omega)
  funext a
  rw [Ram.byte, huser]
  by_cases ha : a / 4096 = 0
  · rw [ha, Function.update_self, Option.map_some, Option.getD_some, Nat.mod_eq_of_lt (by omega)]
  · rw [Function.update_of_ne ha, Option.map_none, Option.getD_none, lsCall_zero (by omega)]

theorem lsProcess_esp : word ((spare 56828 lsCall).page 57340) 1022 = 0 := by
  change word ((onePage.setPage 57343 lsCall).page 57340) 1022 = 0
  rw [Ram.setPage_of_ne _ (by decide), onePage, Ram.setPte, Ram.setPage_of_ne _ (by decide), Ram.setPage_of_ne _ (by decide)]
  rfl

theorem lsProcess_args : (oneProcess 0 lsCall).acceptedArgs 0 = some [[108, 115], [45, 108]] := by
  change (fetchint (fun a => ((spare 56828 lsCall).byte 57341 a).getD 0) 4096
    (((word ((spare 56828 lsCall).page 57340) 1022).toNat + 8) % 0x100000000)).bind
      (fun uargv => acceptedFrom (fun a => ((spare 56828 lsCall).byte 57341 a).getD 0) 4096 uargv MAXARG 0) = _
  rw [lsProcess_memory, lsProcess_esp]
  decide

theorem sysExec_eq {d : Mem} {esp : UInt32} {path : List UInt8} {uargv : ℕ} {argv : Argv}
    (hd : (fun a => (k.ram.byte (k.task p).pgdir a).getD 0 : Mem) = d)
    (hesp : k.call L (op (.word (k.task p).kstack 1022) : Code UInt32) = .ok (esp, k))
    (hpath : (fetchint d (k.task p).sz ((esp.toNat + 4) % 0x100000000)).bind (fetchstr d (k.task p).sz) = some path)
    (huargv : fetchint d (k.task p).sz ((esp.toNat + 8) % 0x100000000) = some uargv)
    (hargv : k.call L (fetchArgs d (k.task p).sz uargv 33 0 (List.replicate MAXARG none)) = .ok (some argv, k)) :
    k.sysExec L p namei = k.exec L p path (namei path) argv := by
  unfold sysExec
  dsimp only
  rw [hd, hesp]
  simp only [bind, Except.bind, hpath, huargv, hargv]

theorem lsProcess_sysExec (namei : List UInt8 → Option (List UInt8)) : (oneProcess 0 lsCall).sysExec manyPages 0 namei =
    (oneProcess 0 lsCall).exec manyPages 0 [108, 115] (namei [108, 115])
      ([[108, 115], [45, 108]].map some ++ none :: List.replicate 29 none) := by
  have hesp : (oneProcess 0 lsCall).call manyPages (op (.word 57340 1022) : Code UInt32) =
      .ok (word ((spare 56828 lsCall).page 57340) 1022, oneProcess 0 lsCall) := rfl
  rw [lsProcess_esp] at hesp
  have huargv : fetchint lsCall 4096 8 = some 16 := by decide
  exact sysExec_eq lsProcess_memory hesp (by decide) huargv rfl

theorem sysExec_argument_stack_ls : (oneProcess 0 lsCall).acceptedArgs 0 = some [[108, 115], [45, 108]] ∧
    ∃ k' ptrs, (oneProcess 0 lsCall).sysExec manyPages 0 (fun _ => some tinyFile) = .ok (0, k') ∧
      ArgStack k'.ram (k'.task 0).pgdir (k'.task 0).sz (word (k'.ram.page (k'.task 0).kstack) 1022).toNat
        [[108, 115], [45, 108]] ptrs := by
  obtain ⟨ret, k', hexec, hx⟩ := sysExec_argument_stack manyPages {57340} (oneProcess 0 lsCall) 0 (fun _ => some tinyFile)
    (oneProcess_running 0 lsCall) (fun path file hfile => by
      cases hfile
      decide) (fun args hargs s hs => by
      rw [lsProcess_args] at hargs
      cases hargs
      revert s
      decide)
  obtain ⟨k1, esp, hok, -⟩ := tinyFile_executed lsCall [108, 115] [[108, 115], [45, 108]] (List.replicate 29 none)
    (by decide) (by decide) (by decide)
  rw [← lsProcess_sysExec (fun _ => some tinyFile), hexec] at hok
  cases hok
  obtain hret | ⟨-, args, ptrs, hargs, -, -, hstack⟩ := hx
  · exact absurd hret (by decide)
  · rw [lsProcess_args] at hargs
    cases hargs
    exact ⟨lsProcess_args, k', ptrs, hexec, hstack⟩

end Kernel

end EnhancedXv6.Vm
