import MyFsck.DirWalks
import MyFsck.Pass1Walk

/-! When the walks end. None of the three walkers keeps note of where it has been, so that each of
them ends exactly on a graph without a cycle, and expands a directory once for each way to it. -/
namespace MyFsck

open ByteBuffer ErrorState Unfolding Tour

/-- How a walk of the graph `kids` from `x` ends, and its noted copy. It expands the nodes `shown`;
if `faulty`, it may stop with a fault other than want of fuel. -/
structure WalkEnds {τ : Type} (kids : ℕ → List ℕ) (shown : ℕ → Bool) (x : ℕ) (faulty : Prop)
    (plain noted : ℕ → Fsck τ) (d : Device) : Prop where
  cyclic : ¬ Acyclic kids x → ∀ fuel, (¬ ∃ a d', (plain fuel).run d = .ok a d') ∧
    (¬ faulty → ∃ d', (plain fuel).run d = .error .outOfFuel d')
  acyclic : Acyclic kids x → ∃ l, Unfolds kids [x] l ∧ (∀ fuel, l.length ≤ fuel →
    ((∃ a d', (plain fuel).run d = .ok a d') ∧ ∃ a d', (noted fuel).run d = .ok a d' ∧
      expanded d'.out = expanded d.out ++ l.filter shown) ∨
    faulty ∧ ∃ e d', e ≠ .outOfFuel ∧ (plain fuel).run d = .error e d') ∧
    ((l.filter shown).Nodup ↔ KidOnce (fun y => (kids y).filter shown) x)

/-- The tour of a walk that may go anywhere. -/
def anywhere (kids : ℕ → List ℕ) (shown : ℕ → Bool) (stops : Fault → Prop) : Tour :=
  ⟨kids,shown,fun _ => True,stops⟩

section Ends

variable {σ τ : Type} {kids : ℕ → List ℕ} {shown : ℕ → Bool} {x : ℕ} {faulty : Prop}
  {P : σ → Device → Prop} {Q : τ → Device → Prop}

theorem anywhere_walked {stops : Fault → Prop} {c : σ → Fsck τ} {s : σ} {d : Device}
    (h : (anywhere kids shown stops).Walked P [x] c Q) (hs : P s d) :
    (∃ l a d', Unfolds kids [x] l ∧ (c s).run d = .ok a d' ∧
      expanded d'.out = expanded d.out ++ l.filter shown) ∨
    ∃ e d', stops e ∧ (c s).run d = .error e d' := by
  rcases h s d hs with ⟨l,a,d',hu,hr,_,hout⟩ | ⟨y,_,hno⟩ | hstop
  · exact Or.inl ⟨l,a,d',hu,hr,hout⟩
  · exact absurd trivial hno
  · exact Or.inr hstop

theorem filter_nodup_iff (hleaf : ∀ y, shown y = false → kids y = []) {l : List ℕ}
    (h : Unfolds kids [x] l) : (l.filter shown).Nodup ↔ KidOnce (fun y => (kids y).filter shown) x := by
  have hf := h.filter hleaf
  cases hx : shown x with
  | true =>
    rw [show [x].filter shown = [x] by simp [hx]] at hf
    exact hf.nodup_iff
  | false =>
    rw [show [x].filter shown = [] by simp [hx]] at hf
    have hno : ∀ a, Reach (fun y => (kids y).filter shown) x a → (kids a).filter shown = [] := by
      have h₀ : (kids x).filter shown = [] := by simp [hleaf x hx]
      intro a ha
      induction ha with
      | refl => exact h₀
      | tail _ hk ih =>
        dsimp only at hk
        rw [ih] at hk
        cases hk
    refine iff_of_true (by rw [hf.nil_inv]; exact List.nodup_nil) ⟨fun a ha => ?_,fun a _ ha _ _ y hy => ?_⟩
    · dsimp only
      rw [hno a ha]
      exact List.nodup_nil
    · dsimp only at hy
      rw [hno a ha] at hy
      cases hy

theorem walkEnds_of_walked {plain noted : ℕ → σ → Fsck τ} {s : σ} {d : Device} (hs : P s d)
    (hsame : ∀ fuel, SameRun (noted fuel s) (plain fuel s))
    (hleaf : ∀ y, shown y = false → kids y = []) (hfin : {y | Reach kids x y}.Finite)
    (hplain : ∀ stops : Fault → Prop, (faulty → ∀ e, e ≠ .outOfFuel → stops e) → ∀ fuel,
      (anywhere kids (fun _ => false) stops).Enough fuel x →
      (anywhere kids (fun _ => false) stops).Walked P [x] (plain fuel) Q)
    (hnoted : ∀ stops : Fault → Prop, (faulty → ∀ e, e ≠ .outOfFuel → stops e) → ∀ fuel,
      (anywhere kids shown stops).Enough fuel x →
      (anywhere kids shown stops).Walked P [x] (noted fuel) Q) :
    WalkEnds kids shown x faulty (fun fuel => plain fuel s) (fun fuel => noted fuel s) d where
  cyclic hcyc fuel := by
    rcases anywhere_walked (hplain (fun e => e = .outOfFuel ∨ faulty) (fun hf _ _ => Or.inr hf) fuel
      (Or.inl (Or.inl rfl))) hs with ⟨l,_,_,hu,_⟩ | ⟨e,d',he,hr⟩
    · exact absurd hu.acyclic hcyc
    · refine ⟨?_,fun hno => ?_⟩
      · rintro ⟨a,d'',hr'⟩
        rw [hr] at hr'
        cases hr'
      · obtain rfl := he.resolve_right hno
        exact ⟨d',hr⟩
  acyclic hacyc := by
    obtain ⟨l,hl⟩ := hacyc.unfolds hfin
    refine ⟨l,hl,fun fuel hfuel => ?_,filter_nodup_iff hleaf hl⟩
    have hstops : faulty → ∀ e, e ≠ Fault.outOfFuel → faulty ∧ e ≠ .outOfFuel := fun hf _ he => ⟨hf,he⟩
    rcases anywhere_walked (hplain (fun e => faulty ∧ e ≠ .outOfFuel) hstops fuel
      (Or.inr ⟨l,hl,hfuel⟩)) hs with ⟨_,a,d',_,hr,_⟩ | ⟨e,d',⟨hf,he⟩,hr⟩
    · rcases anywhere_walked (hnoted (fun e => faulty ∧ e ≠ .outOfFuel) hstops fuel
        (Or.inr ⟨l,hl,hfuel⟩)) hs with ⟨m,b,d'',hm,hr',hout⟩ | ⟨e,d'',⟨hf,he⟩,hr'⟩
      · rw [hm.functional hl] at hout
        exact Or.inl ⟨⟨a,d',hr⟩,b,d'',hr',hout⟩
      · rcases hsame fuel d d rfl with ⟨_,_,_,_,hn,_⟩ | ⟨_,_,_,_,hp,_⟩
        · rw [hr'] at hn
          cases hn
        · rw [hr] at hp
          cases hp
    · exact Or.inr ⟨hf,e,d',he,hr⟩

end Ends

section Walks

variable {g : Globals} {d : Device} {x : ℕ}

theorem reach_finite {kids : ℕ → List ℕ} (h : ∀ y, Reach kids x y → y ≤ g.superBlock.sInodesCount) :
    {y | Reach kids x y}.Finite := (Set.finite_Iic g.superBlock.sInodesCount).subset h

theorem written_keepsLog (x : ℕ) : KeepsLog (written x) := .print _

theorem silent_keepsLog (x : ℕ) : KeepsLog (silent x) := .of_readOnly (.pure _)

theorem traversor_ends (hg : Geometry g) (hf : g.Fits d.image)
    (hok : ∀ y, Reach (g.subdirs d.image) x y → DirOk g d.image y) {counts : Buf}
    (hc : counts.size = g.superBlock.sInodesCount+1) :
    WalkEnds (g.subdirs d.image) (fun _ => true) x False
      (fun fuel => directoryTraversor g fuel counts x)
      (fun fuel => traversorNoted g written fuel counts x) d := by
  refine @walkEnds_of_walked _ _ _ _ _ _ (Counting g d.image) (Counting g d.image)
    (fun fuel c => directoryTraversor g fuel c x) (fun fuel c => traversorNoted g written fuel c x)
    counts d ⟨hc,rfl⟩ (fun fuel => traversorNoted_same g written written_same fuel counts x) (by simp)
    (reach_finite fun y hy => (hok y hy).num_le) (fun stops _ fuel hfuel => ?_)
    (fun stops _ fuel hfuel => ?_)
  · rw [← traversorNoted_silent]
    exact traversorNoted_walked hg hf silent_keepsLog (fun y hy => Or.inl ⟨notes_silent rfl y,hok y hy,
      rfl,fun k hk => hy.tail hk⟩) fuel .refl hfuel
  · exact traversorNoted_walked hg hf written_keepsLog (fun y hy => Or.inl ⟨notes_written rfl,hok y hy,
      rfl,fun k hk => hy.tail hk⟩) fuel .refl hfuel

theorem pass1_ends (hg : Geometry g) (hf : g.Fits d.image)
    (hok : ∀ y, Reach (g.pass1Kids d.image) x y → DirOk g d.image y ∧ OffTable g d.image y) {p : ℕ}
    (hp : Numbers p) :
    WalkEnds (g.pass1Kids d.image) (fun _ => true) x False (fun fuel => pass1 g fuel p x)
      (fun fuel => pass1Noted g written fuel p x) d := by
  refine @walkEnds_of_walked _ _ _ _ _ _ (fun (_ : Unit) e => DotsChanged g _ d.image e.image)
    (fun _ e => DotsChanged g (Reach (g.pass1Kids d.image) x) d.image e.image)
    (fun fuel _ => pass1 g fuel p x) (fun fuel _ => pass1Noted g written fuel p x)
    () d (.refl fun y hy => (hok y hy).1) (fun fuel => pass1Noted_same g written written_same fuel p x)
    (by simp) (reach_finite fun y hy => (hok y hy).1.num_le) (fun stops _ fuel hfuel => ?_)
    (fun stops _ fuel hfuel => ?_)
  · rw [← pass1Noted_silent]
    exact pass1Noted_walked hg hf silent_keepsLog hok (fun y hy => Or.inl ⟨hy,notes_silent rfl y,
      rfl,fun k hk => hy.tail hk⟩) fuel hp .refl hfuel
  · exact pass1Noted_walked hg hf written_keepsLog hok (fun y hy => Or.inl ⟨hy,notes_written rfl,
      rfl,fun k hk => hy.tail hk⟩) fuel hp .refl hfuel

/-- Marking the blocks of a regular file met below `x` can stop the walk. -/
def FileStops (g : Globals) (img : Buf) (x : ℕ) : Prop :=
  ∃ y, Reach (g.walkKids img) x y ∧ inodeIsReg (g.inodeAt img y) = true ∧
    StopsAt g img (g.inodeAt img y)

theorem bitmap_ends (hg : Geometry g) (hf : g.Fits d.image)
    (hok : ∀ y, Reach (g.walkKids d.image) x y → WalkOk g d.image y) {block_bitmap : Buf}
    (hm : Marks (g.superBlock.sBlocksCount+1) block_bitmap) :
    WalkEnds (g.walkKids d.image) (g.entered d.image) x (FileStops g d.image x)
      (fun fuel => getTrueBlockBitmap g fuel block_bitmap x)
      (fun fuel => bitmapNoted g written fuel block_bitmap x) d := by
  refine @walkEnds_of_walked _ _ _ _ _ _ (Mapping g d.image) (Mapping g d.image)
    (fun fuel c => getTrueBlockBitmap g fuel c x) (fun fuel c => bitmapNoted g written fuel c x)
    block_bitmap d ⟨rfl,hm⟩ (fun fuel => bitmapNoted_same g written written_same fuel _ x)
    (fun y hy => ?_) (reach_finite fun y hy => (hok y hy).num_le) (fun stops hstops fuel hfuel => ?_)
    (fun stops hstops fuel hfuel => ?_)
  · simp only [Globals.entered,Bool.not_eq_false'] at hy
    simp [Globals.walkKids,hy]
  · rw [← bitmapNoted_silent]
    exact bitmapNoted_walked hg hf silent_keepsLog (fun y hy => Or.inl ⟨fun _ => notes_silent rfl y,
      fun _ => rfl,hok y hy,rfl,fun hreg e he hst => hstops ⟨y,hy,hreg,hst⟩ e he,
      fun k hk => hy.tail hk⟩) fuel .refl hfuel
  · exact bitmapNoted_walked hg hf written_keepsLog (fun y hy => Or.inl ⟨fun hs => notes_written hs,
      id,hok y hy,rfl,fun hreg e he hst => hstops ⟨y,hy,hreg,hst⟩ e he,
      fun k hk => hy.tail hk⟩) fuel .refl hfuel

/-- From any inode, and for `pass1` with any number for its parent, each walker ends if and only if
the graph it follows has no cycle below the inode. `get_true_block_bitmap` may also stop at a file. -/
theorem walks_end_iff (hg : Geometry g) (hf : g.Fits d.image) (x : ℕ) {p : ℕ} (hp : Numbers p)
    {counts block_bitmap : Buf} (hc : counts.size = g.superBlock.sInodesCount+1)
    (hm : Marks (g.superBlock.sBlocksCount+1) block_bitmap) :
    ((∀ y, Reach (g.pass1Kids d.image) x y → DirOk g d.image y ∧ OffTable g d.image y) →
      WalkEnds (g.pass1Kids d.image) (fun _ => true) x False (fun fuel => pass1 g fuel p x)
        (fun fuel => pass1Noted g written fuel p x) d) ∧
    ((∀ y, Reach (g.subdirs d.image) x y → DirOk g d.image y) →
      WalkEnds (g.subdirs d.image) (fun _ => true) x False
        (fun fuel => directoryTraversor g fuel counts x)
        (fun fuel => traversorNoted g written fuel counts x) d) ∧
    ((∀ y, Reach (g.walkKids d.image) x y → WalkOk g d.image y) →
      WalkEnds (g.walkKids d.image) (g.entered d.image) x (FileStops g d.image x)
        (fun fuel => getTrueBlockBitmap g fuel block_bitmap x)
        (fun fuel => bitmapNoted g written fuel block_bitmap x) d) :=
  ⟨fun hok => pass1_ends hg hf hok hp,fun hok => traversor_ends hg hf hok hc,
    fun hok => bitmap_ends hg hf hok hm⟩

end Walks

/-- The root (block 7) names directory 11 (block 8). In `treeImage` this names nothing, in
`loopImage` it names the root, and there the directories 12 and 13 name each other. -/
def dirBytes (self parent : ℕ) (rest : List ℕ) : List ℕ :=
  entryBytes self 12 2 [46,0,0,0] ++ (if rest = [] then entryBytes parent 1012 2 [46,46]
    else entryBytes parent 12 2 [46,46,0,0] ++ rest)

def treeImage : Buf := exampleImage 16 [
  inodePiece 2 (inodeBytes 0x4000 1024 2 [7]), inodePiece 11 (inodeBytes 0x4000 1024 2 [8]),
  blockPiece 7 0 (dirBytes 2 2 (entryBytes 11 1000 2 [97])), blockPiece 8 0 (dirBytes 11 2 [])]

def loopImage : Buf := exampleImage 16 [
  inodePiece 2 (inodeBytes 0x4000 1024 2 [7]), inodePiece 11 (inodeBytes 0x4000 1024 2 [8]),
  inodePiece 12 (inodeBytes 0x4000 1024 2 [9]), inodePiece 13 (inodeBytes 0x4000 1024 2 [10]),
  blockPiece 7 0 (dirBytes 2 2 (entryBytes 11 1000 2 [97])),
  blockPiece 8 0 (dirBytes 11 2 (entryBytes 2 1000 2 [98])),
  blockPiece 9 0 (dirBytes 12 13 (entryBytes 13 1000 2 [99])),
  blockPiece 10 0 (dirBytes 13 12 (entryBytes 12 1000 2 [100]))]

theorem tree_nodes {kids : ℕ → List ℕ} (h : kids 2 = [11] ∧ kids 11 = []) {y : ℕ}
    (hy : Reach kids 2 y) : y = 2 ∨ y = 11 := by
  have hmem : y ∈ [2,11] := hy.mem (by simp) fun a ha k hk => by
    simp only [List.mem_cons,List.not_mem_nil,or_false] at ha
    rcases ha with rfl | rfl
    · rw [h.1] at hk
      simpa using Or.inr hk
    · rw [h.2] at hk
      cases hk
  simpa using hmem

theorem loop_nodes {kids : ℕ → List ℕ} {a b : ℕ} (h : kids a = [b] ∧ kids b = [a]) {y : ℕ}
    (hy : Reach kids a y) : y = a ∨ y = b := by
  have hmem : y ∈ [a,b] := hy.mem (by simp) fun c hc k hk => by
    simp only [List.mem_cons,List.not_mem_nil,or_false] at hc
    rcases hc with rfl | rfl
    · rw [h.1] at hk
      simpa using Or.inr hk
    · rw [h.2] at hk
      simpa using Or.inl hk
  simpa using hmem

theorem loop_cyclic {kids : ℕ → List ℕ} {a b : ℕ} (h : kids a = [b] ∧ kids b = [a]) :
    ¬ Acyclic kids a := fun hacyc =>
  hacyc a .refl (Relation.TransGen.tail (b := b) (.single (by rw [h.1]; simp)) (by rw [h.2]; simp))

theorem tree_dirs {y : ℕ} (hy : y = 2 ∨ y = 11) : DirOk (exampleGlobals 16) treeImage y ∧
    OffTable (exampleGlobals 16) treeImage y := by
  rcases hy with rfl | rfl <;>
    exact ⟨(liveDir_of_check (by decide +kernel)).ok,offTable_of_check (by decide +kernel)⟩

theorem loop_live {y : ℕ} (hy : (y = 2 ∨ y = 11) ∨ y = 12 ∨ y = 13) :
    LiveDir (exampleGlobals 16) loopImage y := by
  rcases hy with (rfl | rfl) | rfl | rfl <;> exact liveDir_of_check (by decide +kernel)

theorem loop_dirs {y : ℕ} (hy : (y = 2 ∨ y = 11) ∨ y = 12 ∨ y = 13) :
    DirOk (exampleGlobals 16) loopImage y ∧ OffTable (exampleGlobals 16) loopImage y := by
  refine ⟨(loop_live hy).ok,?_⟩
  rcases hy with (rfl | rfl) | rfl | rfl <;> exact offTable_of_check (by decide +kernel)

theorem walks_end_iff_tree :
    WalkEnds ((exampleGlobals 16).pass1Kids treeImage) (fun _ => true) 2 False
      (fun fuel => pass1 (exampleGlobals 16) fuel 2 2)
      (fun fuel => pass1Noted (exampleGlobals 16) written fuel 2 2) ⟨treeImage,[]⟩ ∧
    WalkEnds ((exampleGlobals 16).subdirs treeImage) (fun _ => true) 2 False
      (fun fuel => directoryTraversor (exampleGlobals 16) fuel (calloc 17) 2)
      (fun fuel => traversorNoted (exampleGlobals 16) written fuel (calloc 17) 2) ⟨treeImage,[]⟩ ∧
    WalkEnds ((exampleGlobals 16).walkKids treeImage) ((exampleGlobals 16).entered treeImage) 2
      (FileStops (exampleGlobals 16) treeImage 2)
      (fun fuel => getTrueBlockBitmap (exampleGlobals 16) fuel (calloc 17) 2)
      (fun fuel => bitmapNoted (exampleGlobals 16) written fuel (calloc 17) 2) ⟨treeImage,[]⟩ := by
  have h := @walks_end_iff (exampleGlobals 16) ⟨treeImage,[]⟩ (by decide) (by decide +kernel) 2 2
    (by unfold Numbers; decide) (calloc 17) (calloc 17) rfl (.calloc 17)
  refine ⟨h.1 fun y hy => ?_,h.2.1 fun y hy => ?_,h.2.2 fun y hy => ?_⟩
  · exact tree_dirs (tree_nodes (by decide +kernel) hy)
  · exact (tree_dirs (tree_nodes (by decide +kernel) hy)).1
  · have hok := (tree_dirs (tree_nodes (by decide +kernel) hy)).1
    exact ⟨hok.num_pos,hok.num_le,fun _ _ => hok⟩

/-- No depth is enough for the walks of `loopImage`, from the root and from directory 12. -/
theorem walks_loop : ((exampleGlobals 16).Fits loopImage ∧
      ∀ y ∈ [2,11,12,13], LiveDir (exampleGlobals 16) loopImage y) ∧ ∀ fuel,
    (∃ d', (pass1 (exampleGlobals 16) fuel 2 2).run ⟨loopImage,[]⟩ = .error .outOfFuel d') ∧
    (∃ d', (directoryTraversor (exampleGlobals 16) fuel (calloc 17) 2).run ⟨loopImage,[]⟩ =
      .error .outOfFuel d') ∧
    (∃ d', (directoryTraversor (exampleGlobals 16) fuel (calloc 17) 12).run ⟨loopImage,[]⟩ =
      .error .outOfFuel d') ∧
    ∃ d', (getTrueBlockBitmap (exampleGlobals 16) fuel (calloc 17) 2).run ⟨loopImage,[]⟩ =
      .error .outOfFuel d' := by
  have hg : Geometry (exampleGlobals 16) := by decide
  have hf : (exampleGlobals 16).Fits (Device.image ⟨loopImage,[]⟩) := by decide +kernel
  have h₁ : (exampleGlobals 16).pass1Kids loopImage 2 = [11] ∧
    (exampleGlobals 16).pass1Kids loopImage 11 = [2] := by decide +kernel
  have h₂ : (exampleGlobals 16).subdirs loopImage 2 = [11] ∧
    (exampleGlobals 16).subdirs loopImage 11 = [2] := by decide +kernel
  have h₃ : (exampleGlobals 16).subdirs loopImage 12 = [13] ∧
    (exampleGlobals 16).subdirs loopImage 13 = [12] := by decide +kernel
  have h₄ : (exampleGlobals 16).walkKids loopImage 2 = [11] ∧
    (exampleGlobals 16).walkKids loopImage 11 = [2] := by decide +kernel
  have hdirs : ∀ y, y = 2 ∨ y = 11 → inodeIsReg ((exampleGlobals 16).inodeAt loopImage y) = false := by
    rintro y (rfl | rfl) <;> decide +kernel
  have hp := pass1_ends hg hf (fun y hy => loop_dirs (Or.inl (loop_nodes h₁ hy)))
    (show Numbers 2 by unfold Numbers; decide)
  have ht := @traversor_ends _ _ 2 hg hf (fun y hy => (loop_dirs (Or.inl (loop_nodes h₂ hy))).1)
    (calloc 17) rfl
  have ho := @traversor_ends _ _ 12 hg hf (fun y hy => (loop_dirs (Or.inr (loop_nodes h₃ hy))).1)
    (calloc 17) rfl
  have hb := @bitmap_ends _ _ 2 hg hf (fun y hy => by
    have hok := (loop_dirs (Or.inl (loop_nodes h₄ hy))).1
    exact ⟨hok.num_pos,hok.num_le,fun _ _ => hok⟩) (calloc 17) (.calloc 17)
  refine ⟨⟨hf,fun y hy => ?_⟩,fun fuel => ⟨(hp.cyclic (loop_cyclic h₁) fuel).2 id,(ht.cyclic (loop_cyclic h₂) fuel).2 id,
    (ho.cyclic (loop_cyclic h₃) fuel).2 id,(hb.cyclic (loop_cyclic h₄) fuel).2 ?_⟩⟩
  · simp only [List.mem_cons,List.not_mem_nil,or_false] at hy
    exact loop_live (by omega)
  · rintro ⟨y,hy,hreg,_⟩
    rw [hdirs y (loop_nodes h₄ hy)] at hreg
    cases hreg

end MyFsck
