import MyFsck.PassOrder
import MyFsck.Traversal
import MyFsck.Paths

/-! The counting traversal in terms of paths: it adds to the counter of an inode the number of ways to
come from the first directory to an entry that names the inode. -/
namespace MyFsck

open ByteBuffer ErrorState Unfolding

/-- The entries of the blocks from block `i` on. -/
def placesFrom : ℕ → List (List (ℕ × DirEntry)) → List ((ℕ × ℕ) × DirEntry)
  | _, [] => []
  | i, b::bs => (b.zipIdx.map fun q => ((i,q.2),q.1.2)) ++ placesFrom (i+1) bs

/-- The walk may follow an entry in this place. -/
def followed (p : (ℕ × ℕ) × DirEntry) : Bool := decide (p.1.1 ≠ 0 ∨ 2 ≤ p.1.2) && dirIsDir p.2

def namePlaces (es : List (List (ℕ × DirEntry))) : List ((ℕ × ℕ) × ℕ) :=
  (placesFrom 0 es).map fun p => (p.1,p.2.inode)

def subdirPlaces (es : List (List (ℕ × DirEntry))) : List ((ℕ × ℕ) × ℕ) :=
  ((placesFrom 0 es).filter followed).map fun p => (p.1,p.2.inode)

theorem placesFrom_entries (i : ℕ) (es : List (List (ℕ × DirEntry))) :
    (placesFrom i es).map Prod.snd = es.flatten.map Prod.snd := by
  induction es generalizing i with
  | nil => rfl
  | cons b bs ih =>
    have hb : (b.zipIdx.map fun q => ((i,q.2),q.1.2)).map Prod.snd = b.map Prod.snd := by
      rw [List.map_map,show (Prod.snd ∘ fun q : (ℕ × DirEntry) × ℕ => ((i,q.2),q.1.2)) =
        Prod.snd ∘ Prod.fst from rfl,← List.map_map,List.zipIdx_map_fst]
    rw [placesFrom,List.map_append,hb,ih,List.flatten_cons,List.map_append]

theorem placesFrom_nodup (i : ℕ) (es : List (List (ℕ × DirEntry))) :
    ((placesFrom i es).map Prod.fst).Nodup ∧ ∀ p ∈ placesFrom i es, i ≤ p.1.1 := by
  induction es generalizing i with
  | nil => exact ⟨List.nodup_nil,fun p hp => absurd hp (by simp [placesFrom])⟩
  | cons b bs ih =>
    obtain ⟨hnd,hle⟩ := ih (i+1)
    have hb : (b.zipIdx.map fun q => ((i,q.2),q.1.2)).map Prod.fst =
        (List.range b.length).map fun k => (i,k) := by
      rw [List.map_map,show (Prod.fst ∘ fun q : (ℕ × DirEntry) × ℕ => ((i,q.2),q.1.2)) =
        (fun k => (i,k)) ∘ Prod.snd from rfl,← List.map_map,List.zipIdx_map_snd,List.range_eq_range']
    constructor
    · rw [placesFrom,List.map_append,hb,List.nodup_append']
      refine ⟨List.nodup_range.map fun k l hkl => (Prod.mk.inj hkl).2,hnd,?_⟩
      intro q hq₁ hq₂
      obtain ⟨k,-,rfl⟩ := List.mem_map.mp hq₁
      obtain ⟨p,hp,hpq⟩ := List.mem_map.mp hq₂
      have := hle p hp
      rw [hpq] at this
      simp only at this
      omega
    · intro p hp
      rcases List.mem_append.mp hp with hp | hp
      · obtain ⟨q,-,rfl⟩ := List.mem_map.mp hp
        exact le_rfl
      · exact (Nat.le_succ i).trans (hle p hp)

theorem namePlaces_names (es : List (List (ℕ × DirEntry))) : (namePlaces es).map Prod.snd = namedIn es := by
  rw [namePlaces,List.map_map,show (Prod.snd ∘ fun p : (ℕ × ℕ) × DirEntry => (p.1,p.2.inode)) =
    DirEntry.inode ∘ Prod.snd from rfl,← List.map_map,placesFrom_entries,List.map_map]
  rfl

theorem namePlaces_nodup (es : List (List (ℕ × DirEntry))) : ((namePlaces es).map Prod.fst).Nodup := by
  have h := (placesFrom_nodup 0 es).1
  rwa [namePlaces,List.map_map]

theorem subdirPlaces_nodup (es : List (List (ℕ × DirEntry))) :
    ((subdirPlaces es).map Prod.fst).Nodup := by
  have h := (placesFrom_nodup 0 es).1.sublist
    (((placesFrom 0 es).filter_sublist (p := followed)).map Prod.fst)
  rwa [subdirPlaces,List.map_map]

theorem nonDotFrom_places (i count : ℕ) (b : List (ℕ × DirEntry)) :
    (((b.zipIdx count).map fun q => ((i,q.2),q.1.2)).filter followed).map (fun p => p.2.inode) =
      ((nonDotFrom i count b).filter dirIsDir).map DirEntry.inode := by
  induction b generalizing count with
  | nil => rfl
  | cons e b ih =>
    obtain ⟨o,e⟩ := e
    rw [List.zipIdx_cons,List.map_cons,nonDotFrom,List.filter_cons]
    by_cases hplace : i ≠ 0 ∨ 2 ≤ count
    · rw [if_pos hplace,List.filter_cons]
      cases hd : dirIsDir e with
      | true => simp [followed,hplace,hd,ih]
      | false => simp [followed,hd,ih]
    · rw [if_neg hplace,← ih]
      simp [followed,hplace]

theorem subdirPlaces_subdirs (es : List (List (ℕ × DirEntry))) :
    (subdirPlaces es).map Prod.snd = subdirsIn es := by
  have key : ∀ i, ((placesFrom i es).filter followed).map (fun p => p.2.inode) =
      ((nonDotBlocks i es).filter dirIsDir).map DirEntry.inode := by
    induction es with
    | nil => exact fun _ => rfl
    | cons b bs ih =>
      intro i
      rw [placesFrom,nonDotBlocks,List.filter_append,List.map_append,List.filter_append,List.map_append,
        ih (i+1),nonDotFrom_places i 0 b]
  rw [subdirPlaces,List.map_map,subdirsIn]
  exact key 0

namespace Globals

variable (g : Globals) (img : Buf)

/-- The entries of directory `y`, block by block. -/
def entriesIn (y : ℕ) : List (List (ℕ × DirEntry)) := (g.dirBlocksIn img y).map (g.blockEntriesIn img)

/-- The directory-typed entries that a walk follows, but for the first two of the first block, and all
entries; each with its place. -/
def subdirEdges (y : ℕ) : List ((ℕ × ℕ) × ℕ) := subdirPlaces (g.entriesIn img y)

def nameItems (y : ℕ) : List ((ℕ × ℕ) × ℕ) := namePlaces (g.entriesIn img y)

def subdirsFrom (y : ℕ) : List ℕ := (g.subdirEdges img y).map Prod.snd

end Globals

/-- The directory can be read, its blocks are made of live entries, and these name inodes of the file
system. -/
structure LiveDirIn (g : Globals) (img : Buf) (y : ℕ) : Prop where
  inode : ∃ inode, g.inodeIn img y = some inode
  blocks : ∀ b ∈ g.dirBlocksIn img y,
    ∃ blk, g.blockIn img b = some blk ∧ blk.size = g.blockSize ∧ LiveBlock blk
  named_le : ∀ p ∈ g.nameItems img y, p.2 ≤ g.superBlock.sInodesCount

/-- The directories from `d` on are a finite graph without cycles, and each of them is in order. -/
structure LiveGraph (g : Globals) (img : Buf) (d : ℕ) : Prop where
  finite : {y | Reach (g.subdirsFrom img) d y}.Finite
  acyclic : Acyclic (g.subdirsFrom img) d
  live : ∀ y, Reach (g.subdirsFrom img) d y → LiveDirIn g img y

section Counting

variable {g : Globals} {img : Buf}

theorem LiveDirIn.finds {y : ℕ} (h : LiveDirIn g img y) : FindsDir g img y (g.entriesIn img y) := by
  obtain ⟨inode,hin⟩ := h.inode
  have hblocks := h.blocks
  rw [dirBlocksIn_eq hin] at hblocks
  refine ⟨inode,fun b => (g.blockIn img b).getD (Buf.zero 0),
    fun d hd => (SameRun.readInode g y).run_eq (readInode_readOnly g y) hin hd,?_,fun b hb => ?_⟩
  · rw [Globals.entriesIn,dirBlocksIn_eq hin]
    refine List.map_congr_left fun b hb => ?_
    obtain ⟨blk,hblk,-⟩ := hblocks b hb
    simp only [Globals.blockEntriesIn,hblk,Option.map_some,Option.getD_some]
  · obtain ⟨blk,hblk,hsize,hlive⟩ := hblocks b hb
    simp only [hblk,Option.getD_some]
    exact ⟨hsize,hlive.wellFormed,fun d hd => (SameRun.block g b).run_eq (block_readOnly g b) hblk hd⟩

theorem subdirsFrom_eq (y : ℕ) : g.subdirsFrom img y = subdirsIn (g.entriesIn img y) :=
  subdirPlaces_subdirs (g.entriesIn img y)

theorem LiveGraph.adds {d : ℕ} (h : LiveGraph g img d) : ∃ ds, Unfolds (g.subdirsFrom img) [d] ds ∧
    (∀ y ∈ ds, ∀ x ∈ namedIn (g.entriesIn img y), x ≤ g.superBlock.sInodesCount) ∧
    ∀ n > g.superBlock.sInodesCount, ∀ fuel ≥ ds.length, Adds addCounts (fun c => c.size = n) img False
      (fun c => directoryTraversor g fuel c d) (ds.flatMap fun y => namedIn (g.entriesIn img y)) := by
  obtain ⟨ds,hds⟩ := h.acyclic.unfolds h.finite
  have hnamed : ∀ y ∈ ds, ∀ x ∈ namedIn (g.entriesIn img y), x ≤ g.superBlock.sInodesCount := by
    intro y hy x hx
    rw [← namePlaces_names] at hx
    obtain ⟨p,hp,rfl⟩ := List.mem_map.mp hx
    exact (h.live y (hds.mem_iff.mp hy)).named_le p hp
  have hu : Unfolds (fun y => subdirsIn (g.entriesIn img y)) [d] ds :=
    hds.congr fun y _ => (subdirsFrom_eq y).symm
  exact ⟨ds,hds,hnamed,fun n hn => directoryTraversor_adds hu fun y hy =>
    ⟨(h.live y (hds.mem_iff.mp hy)).finds,fun x hx => (hnamed y hy x hx).trans_lt hn⟩⟩

theorem Adds.run_eq {n : ℕ} {x : Buf → Fsck Buf} {l : List ℕ} (h : Adds addCounts (fun c => c.size = n) img False x l)
    (hread : ∀ c, ReadOnly (x c)) {c : Buf} (hc : c.size = n) {d : Device} (hd : d.image = img) :
    (x c).run d = .ok (addCounts c l) d := by
  obtain ⟨d',hrun,-⟩ | ⟨hno,-⟩ := h c d hc hd
  · rw [(hread c).state_eq hrun] at hrun
    exact hrun
  · exact hno.elim

/-- The traversal adds, modulo 256, to the counter of each inode the number of paths from `d` to an
entry that names it, and changes nothing else; so two traversals may be done in either order. -/
theorem directoryTraversor_paths {d : ℕ} (h : LiveGraph g img d) :
    (∃ n, ∀ fuel ≥ n, ∀ counts : Buf, g.superBlock.sInodesCount < counts.size → ∀ dev : Device,
      dev.image = img → ∃ counts' : Buf, (directoryTraversor g fuel counts d).run dev = .ok counts' dev ∧
        counts'.size = counts.size ∧
        ∀ x, (pathsTo (g.subdirEdges img) (g.nameItems img) d x).Finite ∧ counts'.byte x = counts.byte x +
          BitVec.ofNat 8 (pathsTo (g.subdirEdges img) (g.nameItems img) d x).ncard) ∧
    ∀ d', LiveGraph g img d' → ∃ n, ∀ fuel ≥ n, ∀ counts : Buf, g.superBlock.sInodesCount < counts.size →
      ∀ dev : Device, dev.image = img → ∃ counts' : Buf,
        (directoryTraversor g fuel counts d >>= fun c => directoryTraversor g fuel c d').run dev =
          .ok counts' dev ∧
        (directoryTraversor g fuel counts d' >>= fun c => directoryTraversor g fuel c d).run dev =
          .ok counts' dev := by
  obtain ⟨ds,hds,hnamed,hadds⟩ := h.adds
  have hread := fun fuel y c => directoryTraversor_readOnly g fuel c y
  refine ⟨⟨ds.length,fun fuel hfuel counts hc dev hd => ⟨_,(hadds _ hc fuel hfuel).run_eq (hread fuel d) rfl hd,
    rfl,fun x => ?_⟩⟩,fun d' h' => ?_⟩
  · obtain ⟨hfin,hcard⟩ := Unfolds.ncard_pathsTo (fun y => subdirPlaces_nodup (g.entriesIn img y))
      (fun y => namePlaces_nodup (g.entriesIn img y)) hds x
    simp only [namePlaces_names] at hcard
    refine ⟨hfin,?_⟩
    rw [show (pathsTo (g.subdirEdges img) (g.nameItems img) d x).ncard = _ from hcard]
    by_cases hx : x < counts.size
    · exact addCounts_byte _ hx
    · have hno : x ∉ ds.flatMap fun y => namedIn (g.entriesIn img y) := fun hmem => by
        obtain ⟨y,hy,hxy⟩ := List.mem_flatMap.mp hmem
        have := hnamed y hy x hxy
        omega
      rw [List.count_eq_zero_of_not_mem hno,counts.past_end x (by omega),
        (addCounts counts _).past_end x (by rw [addCounts_size]; omega)]
      rfl
  · obtain ⟨ds',-,-,hadds'⟩ := h'.adds
    refine ⟨ds.length+ds'.length,fun fuel hfuel counts hc dev hd => ?_⟩
    have ha := addCounts_accumulator counts.size
    have h₁ := hadds _ hc fuel (by omega)
    have h₂ := hadds' _ hc fuel (by omega)
    have hread₂ : ∀ y z c, ReadOnly (directoryTraversor g fuel c y >>= fun c => directoryTraversor g fuel c z) :=
      fun y z c => (hread fuel y c).bind (hread fuel z)
    exact ⟨_,(h₁.bind ha h₂).run_eq (hread₂ d d') rfl hd,
      ((h₂.bind ha h₁).perm ha List.perm_append_comm).run_eq (hread₂ d' d) rfl hd⟩

end Counting

/-- Two directories that name a third one, so that there are two paths to it. -/
def diamondImage : Buf := exampleImage 16 [
  inodePiece 2 (inodeBytes 0x41ED 1024 4 [7]),
  inodePiece 11 (inodeBytes 0x41ED 1024 2 [8]),
  inodePiece 12 (inodeBytes 0x41ED 1024 2 [9]),
  blockPiece 7 0 (entryBytes 2 12 2 [46]),
  blockPiece 7 12 (entryBytes 2 12 2 [46,46]),
  blockPiece 7 24 (entryBytes 11 12 2 [97]),
  blockPiece 7 36 (entryBytes 12 988 2 [98]),
  blockPiece 8 0 (entryBytes 11 12 2 [46]),
  blockPiece 8 12 (entryBytes 2 12 2 [46,46]),
  blockPiece 8 24 (entryBytes 12 1000 2 [99]),
  blockPiece 9 0 (entryBytes 12 12 2 [46]),
  blockPiece 9 12 (entryBytes 2 12 2 [46,46]),
  blockPiece 9 24 (entryBytes 13 1000 1 [100])]

/-- The conditions on a directory as a computation. -/
def readCheck (g : Globals) (img : Buf) (y : ℕ) : Bool :=
  (g.inodeIn img y).isSome &&
    (g.dirBlocksIn img y).all (fun b => (g.blockIn img b).any fun blk =>
      blk.size == g.blockSize && liveCheck blk blk.size 0) &&
    (g.nameItems img y).all fun p => decide (p.2 ≤ g.superBlock.sInodesCount)

theorem LiveDirIn.of_check {g : Globals} {img : Buf} {y : ℕ} (h : readCheck g img y = true) :
    LiveDirIn g img y := by
  simp only [readCheck,Bool.and_eq_true,List.all_eq_true,decide_eq_true_eq] at h
  refine ⟨Option.isSome_iff_exists.mp h.1.1,fun b hb => ?_,h.2⟩
  obtain ⟨blk,hblk,hcheck⟩ := (Option.any_eq_true _ _).mp (h.1.2 b hb)
  rw [Bool.and_eq_true] at hcheck
  exact ⟨blk,hblk,beq_iff_eq.mp hcheck.1,liveBlock_of_check hcheck.2⟩

theorem LiveGraph.of_unfolds {g : Globals} {img : Buf} {d : ℕ} {ds : List ℕ}
    (h : Unfolds (g.subdirsFrom img) [d] ds) (hlive : ∀ y ∈ ds, LiveDirIn g img y) : LiveGraph g img d :=
  ⟨(List.finite_toSet ds).subset fun _ hy => h.mem_iff.mpr hy,h.acyclic,
    fun y hy => hlive y (h.mem_iff.mpr hy)⟩

theorem diamond_graph : LiveGraph (exampleGlobals 16) diamondImage 2 ∧
    LiveGraph (exampleGlobals 16) diamondImage 11 := by
  have h₂ : Unfolds ((exampleGlobals 16).subdirsFrom diamondImage) [2] [2,11,12,12] :=
    unfolds_of_unfoldFrom (n := 5) (by decide +kernel)
  have h₁₁ : Unfolds ((exampleGlobals 16).subdirsFrom diamondImage) [11] [11,12] :=
    unfolds_of_unfoldFrom (n := 3) (by decide +kernel)
  have hcheck : ∀ y ∈ [2,11,12], readCheck (exampleGlobals 16) diamondImage y = true := by decide +kernel
  have hlive := fun y hy => LiveDirIn.of_check (hcheck y hy)
  exact ⟨.of_unfolds h₂ fun y hy => hlive y (by simp only [List.mem_cons] at hy ⊢; tauto),
    .of_unfolds h₁₁ fun y hy => hlive y (by simp only [List.mem_cons] at hy ⊢; tauto)⟩

/-- From the root inode 13 is found on two paths, from inode 11 on one. -/
theorem directoryTraversor_paths_diamond : ∃ n, ∀ fuel ≥ n, ∃ counts counts' : Buf,
    (directoryTraversor (exampleGlobals 16) fuel (Buf.zero 17) 2).run ⟨diamondImage,[]⟩ =
      .ok counts ⟨diamondImage,[]⟩ ∧
    counts.byte 13 = BitVec.ofNat 8 (pathsTo ((exampleGlobals 16).subdirEdges diamondImage)
      ((exampleGlobals 16).nameItems diamondImage) 2 13).ncard ∧
    (directoryTraversor (exampleGlobals 16) fuel (Buf.zero 17) 2 >>= fun c =>
      directoryTraversor (exampleGlobals 16) fuel c 11).run ⟨diamondImage,[]⟩ = .ok counts' ⟨diamondImage,[]⟩ ∧
    (directoryTraversor (exampleGlobals 16) fuel (Buf.zero 17) 11 >>= fun c =>
      directoryTraversor (exampleGlobals 16) fuel c 2).run ⟨diamondImage,[]⟩ = .ok counts' ⟨diamondImage,[]⟩ := by
  obtain ⟨⟨n,hn⟩,horder⟩ := directoryTraversor_paths diamond_graph.1
  obtain ⟨n',hn'⟩ := horder 11 diamond_graph.2
  refine ⟨n+n',fun fuel hfuel => ?_⟩
  obtain ⟨counts,hrun,-,hbytes⟩ := hn fuel (by omega) (Buf.zero 17) (by decide) ⟨diamondImage,[]⟩ rfl
  obtain ⟨counts',hrun₁,hrun₂⟩ := hn' fuel (by omega) (Buf.zero 17) (by decide) ⟨diamondImage,[]⟩ rfl
  refine ⟨counts,counts',hrun,?_,hrun₁,hrun₂⟩
  simp [(hbytes 13).2]

end MyFsck
