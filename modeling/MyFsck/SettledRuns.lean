import MyFsck.Righting

/-! The whole run on a sound tree. If it reports no inode that nothing refers to, it ends, and the passes find
nothing to do on what it leaves. -/
namespace MyFsck

open ByteBuffer ErrorState Unfolding

theorem pass2_quiet_or {g : Globals} (hl : GroupLayout g) {d : Device} (hf : g.Fits d.image)
    (ht : DirTree g d.image) {ds : List ℕ} (hu : Unfolds (g.subdirs d.image) [rootInodeNum] ds) {fuel : ℕ}
    (hfuel : ds.length ≤ fuel) : (pass2 g fuel).run d = .ok () d ∨
      ∃ i, d.out ++ [.unreferencedInode i] <+: (endState (pass2 g fuel) d).out := by
  classical
  have hok : ∀ y ∈ ds, DirOk g d.image y := fun y hy => ht.dirs y (hu.mem_iff.mp hy)
  by_cases hex : ∃ i, 1 ≤ i ∧ i ≤ g.superBlock.sInodesCount ∧ (g.inodeAt d.image i).iLinksCount ≠ 0 ∧
      g.inodeBit d.image i = true ∧ (g.counted d.image ds).count i % 256 = 0
  · right
    obtain ⟨h1,hi,hlinks,hbit,hzero⟩ := Nat.find_spec hex
    have hbefore := fun j => @Nat.find_min _ _ hex j
    generalize Nat.find hex = i at h1 hi hlinks hbit hzero hbefore
    obtain ⟨m,rfl⟩ : ∃ m, i = m+1 := ⟨i-1,by omega⟩
    obtain ⟨rest,hsplit⟩ := range'_split hi
    have hwalk := directoryTraversor_run hl.geometry hf hu hok fuel hfuel
      (Buf.zero (g.superBlock.sInodesCount+1)) rfl
    have hbyte : ∀ j, j ≤ g.superBlock.sInodesCount → (addCounts (Buf.zero (g.superBlock.sInodesCount+1))
        (g.counted d.image ds)).byte j = BitVec.ofNat 8 ((g.counted d.image ds).count j) := fun j hj =>
      addCounts_zero_byte _ (by omega)
    have hsize : (addCounts (Buf.zero (g.superBlock.sInodesCount+1)) (g.counted d.image ds)).size =
        g.superBlock.sInodesCount+1 := rfl
    generalize addCounts (Buf.zero (g.superBlock.sInodesCount+1)) (g.counted d.image ds) = counts at *
    have hquiet : ((List.range' 1 m).foldlM (pass2Step g fuel (g.inodeFlat d.image)) counts).run d =
        .ok counts d := foldlM_stays fun j hj => by
      have hj' := List.mem_range'_1.mp hj
      refine pass2Step_pass hl hf hj'.1 (by omega) hsize (fun hl' hb' hz => ?_) fuel
      refine hbefore j (by omega) ⟨hj'.1,by omega,hl',hb',?_⟩
      rw [hbyte j (by omega)] at hz
      have hnum := congrArg BitVec.toNat hz
      simpa using hnum
    have hstep := pass2Step_report hl hf h1 hi hlinks hbit hsize (by
      rw [hbyte _ hi]
      exact BitVec.eq_of_toNat_eq (by simpa using hzero)) fuel
    refine ⟨m+1,?_⟩
    unfold pass2
    rw [calloc_inodes hl.geometry,endState_bind hwalk,endState_bind (getInodeBitmapInPartition_run hl hf),hsplit,
      List.foldlM_append,bind_assoc,endState_bind hquiet,List.foldlM_cons,
      endState_congr (bind_congr_run (bind_congr_run hstep))]
    have hkeeps := (((takeIn_keepsLog (g := g) fuel counts (m+1) (inodeIsDir (g.inodeAt d.image (m+1)))).bind
      fun counts => KeepsLog.foldlM (pass2Step_keepsLog (g := g) fuel (g.inodeFlat d.image)) rest counts).bind
        fun _ => KeepsLog.of_readOnly (.pure ())) (d.out++[Event.unreferencedInode (m+1)])
    exact hkeeps.endState (s := ⟨d.image,d.out++[Event.unreferencedInode (m+1)]⟩) List.prefix_rfl
  · left
    refine pass2_quiet hl hf hu hok (fun i h1 hi hlinks hbit hzero => ?_) hfuel
    exact hex ⟨i,h1,hi,hlinks,hbit,hzero⟩

theorem lastPasses_keepsLog {g : Globals} (fuel : ℕ) : KeepsLog (pass3 g fuel >>= fun _ => pass4 g fuel) :=
  fun log => (pass3_keeps (lasting_log g log) fuel).bind fun _ => pass4_keeps (lasting_log g log) fuel

section Run

variable {g : Globals} {img : Buf} (hl : GroupLayout g) (hf : g.Fits img) (h : Sound g img)
include hl hf h

theorem Sound.passes_run {fuel : ℕ} (hfuel : DeepEnough g img fuel) {d : Device} (hd : d.image = img) :
    (∃ w i, (endState (passes g fuel) d).out = d.out ++ w ∧ Event.unreferencedInode i ∈ w) ∨
    ∃ d', (passes g fuel).run d = .ok () d' ∧ g.Fits d'.image ∧ Settled g d'.image ∧ PlainTree g d'.image ∧
      DeepEnough g d'.image fuel := by
  obtain ⟨d₁,h₁,hf₁,hr₁,hdeep₁⟩ := h.pass1_run hl hf hfuel hd
  have hlog := pass1_keeps (lasting_log g d.out) fuel rootInodeNum rootInodeNum d List.prefix_rfl
  rw [h₁] at hlog
  obtain ⟨ds,ps,xs,hds,-,hxs,hle⟩ := id hdeep₁
  rcases pass2_quiet_or hl hf₁ hr₁.tree hds (show ds.length ≤ fuel by omega) with h₂ | ⟨i,h₂⟩
  · right
    obtain ⟨d₄,h₄,hk,hf₄,hs⟩ := hr₁.settles hl hf₁ hds hxs (show ds.length ≤ fuel by omega)
      (show xs.length ≤ fuel by omega) rfl
    refine ⟨d₄,?_,hf₄,hs,(hk.righted hr₁).plainTree,hk.deepEnough hr₁.tree hr₁.dirs hr₁.walk hr₁.marks hdeep₁⟩
    rw [passes,bind_ok h₁,bind_ok h₂,h₄]
  · left
    have hend : d₁.out ++ [.unreferencedInode i] <+: (endState (passes g fuel) d).out := by
      rw [passes,endState_bind h₁]
      exact endState_bind_log (fun _ => lastPasses_keepsLog fuel) h₂
    obtain ⟨v,hv⟩ := hlog
    obtain ⟨w,hw⟩ := hend
    refine ⟨v ++ [.unreferencedInode i] ++ w,i,?_,by simp⟩
    rw [← hw,← hv,List.append_assoc,List.append_assoc,List.append_assoc]

end Run

/-- The root names directory 11 and file 12. The dots of both directories, the link counts of the root and
of the file, and the bitmap, which is empty, are wrong. -/
def untidyImage : Buf := exampleImage 16 [
  inodePiece 2 (inodeBytes 0x41ED 1024 9 [7]), inodePiece 11 (inodeBytes 0x41ED 1024 2 [8]),
  inodePiece 12 (inodeBytes 0x81A4 1024 3 [9]),
  blockPiece 7 0 (entryBytes 5 12 2 [46]), blockPiece 7 12 (entryBytes 3 12 2 [46,46]),
  blockPiece 7 24 (entryBytes 11 12 2 [97]), blockPiece 7 36 (entryBytes 12 988 1 [98]),
  blockPiece 8 0 (entryBytes 3 12 2 [46]), blockPiece 8 12 (entryBytes 9 1012 2 [46,46])]

theorem untidy_sound : Sound (exampleGlobals 16) untidyImage := by
  have hds : Unfolds ((exampleGlobals 16).subdirs untidyImage) [2] [2,11] :=
    unfolds_of_unfoldFrom (n := 3) (by decide +kernel)
  have hxs : Unfolds ((exampleGlobals 16).walkKids untidyImage) [2] [2,11,12] :=
    unfolds_of_unfoldFrom (n := 3) (by decide +kernel)
  have hdirs : ∀ x ∈ [2,11], liveDirCheck (exampleGlobals 16) untidyImage x = true ∧
      (exampleGlobals 16).dirBlocks untidyImage x = [if x = 2 then 7 else 8] ∧
      (exampleGlobals 16).subdirs untidyImage x = (if x = 2 then [11] else []) ∧
      inodeIsLnk ((exampleGlobals 16).inodeAt untidyImage x) = false ∧
      inodeIsReg ((exampleGlobals 16).inodeAt untidyImage x) = false := by decide +kernel
  have hmarks : ∀ x ∈ [2,11,12], (exampleGlobals 16).ownMarks untidyImage x =
      [if x = 2 then 7 else if x = 11 then 8 else 9] := by decide +kernel
  have hfile : inodeIsReg ((exampleGlobals 16).inodeAt untidyImage 12) = true ∧
      ∀ b ∈ fileMarks (exampleGlobals 16) untidyImage ((exampleGlobals 16).inodeAt untidyImage 12), b < 16 := by
    decide +kernel
  have hmem : ∀ x, Reach ((exampleGlobals 16).subdirs untidyImage) rootInodeNum x → x = 2 ∨ x = 11 := by
    intro x hx
    simpa using hds.mem_iff.mpr hx
  have hmem' : ∀ x, Reach ((exampleGlobals 16).walkKids untidyImage) rootInodeNum x → x = 2 ∨ x = 11 ∨ x = 12 := by
    intro x hx
    simpa using hxs.mem_iff.mpr hx
  refine ⟨fun x hx b hb => ?_,⟨fun x hx hr => ?_,fun x y z hx hy hzx hzy => ?_⟩,fun x hx => ?_,
    ⟨hxs.acyclic,fun x hx => ?_,fun x hx hreg => ?_⟩,fun x hx b hb => ?_,fun x y hx hy hne b hb hb' => ?_⟩
  · rcases hmem x hx with rfl | rfl <;> simp [(hdirs _ _).2.1] at hb
  · have hkids := (hdirs x (by simpa using hmem x hx)).2.2.1
    rw [hkids] at hr
    split at hr <;> simp [rootInodeNum] at hr
  · have hx' := (hdirs x (by simpa using hmem x hx)).2.2.1
    have hy' := (hdirs y (by simpa using hmem y hy)).2.2.1
    rw [hx'] at hzx
    rw [hy'] at hzy
    split at hzx
    · split at hzy
      · exact ‹x = 2›.trans ‹y = 2›.symm
      · simp at hzy
    · simp at hzx
  · have hkind := (hdirs x (by simpa using hmem x hx)).2.2.2
    exact hkind
  · rcases hmem' x hx with rfl | rfl | rfl
    · exact ⟨by decide,by decide,fun _ _ => (liveDir_of_check (hdirs 2 (by simp)).1).ok⟩
    · exact ⟨by decide,by decide,fun _ _ => (liveDir_of_check (hdirs 11 (by simp)).1).ok⟩
    · refine ⟨by decide,by decide,fun _ hreg => ?_⟩
      rw [hfile.1] at hreg
      cases hreg
  · rcases hmem' x hx with rfl | rfl | rfl
    · rw [(hdirs 2 (by simp)).2.2.2.2] at hreg
      cases hreg
    · rw [(hdirs 11 (by simp)).2.2.2.2] at hreg
      cases hreg
    · exact hfile.2
  · have hdata : ∀ b ∈ [7,8,9], (exampleGlobals 16).dataBlock b := by
      unfold Globals.dataBlock
      decide +kernel
    rw [hmarks x (by simpa using hmem' x hx),List.mem_singleton] at hb
    refine hdata b ?_
    rw [hb]
    split
    · simp
    · split <;> simp
  · rw [hmarks x (by simpa using hmem' x hx),List.mem_singleton] at hb
    rw [hmarks y (by simpa using hmem' y hy),List.mem_singleton] at hb'
    rcases hmem' x hx with rfl | rfl | rfl <;> rcases hmem' y hy with rfl | rfl | rfl <;> simp_all

end MyFsck
