import MyFsck.TreeWalk

/-! The counting traversal (`directory_traversor`): on an acyclic tree of well-formed directories
it adds to the counters one for each entry of each directory on each path. -/
namespace MyFsck

open ByteBuffer ErrorState Unfolding

/-- Counters with one added, modulo 256, for each number in `l`. -/
def addCounts (counts : Buf) (l : List ℕ) : Buf :=
  Buf.ofFn counts.size fun i => counts.byte i + BitVec.ofNat 8 (l.count i)

@[simp] theorem addCounts_size (c : Buf) (l : List ℕ) : (addCounts c l).size = c.size := rfl

theorem addCounts_byte {c : Buf} {i : ℕ} (l : List ℕ) (h : i < c.size) :
    (addCounts c l).byte i = c.byte i + BitVec.ofNat 8 (l.count i) := Buf.ofFn_byte_lt _ h

theorem addCounts_nil (c : Buf) : addCounts c [] = c := by
  refine Buf.ext_byte rfl fun i hi => ?_
  have hi' : i < c.size := hi
  simp [addCounts_byte [] hi']

theorem addCounts_addCounts (c : Buf) (l m : List ℕ) :
    addCounts (addCounts c l) m = addCounts c (l++m) := by
  refine Buf.ext_byte rfl fun i hi => ?_
  have hi' : i < c.size := hi
  rw [addCounts_byte (c := addCounts c l) m hi',addCounts_byte l hi',addCounts_byte (l++m) hi',List.count_append,
    BitVec.ofNat_add,BitVec.add_assoc]

theorem addCounts_congr (c : Buf) {l m : List ℕ} (h : ∀ i, l.count i = m.count i) :
    addCounts c l = addCounts c m := by simp only [addCounts,h]

theorem countUp_eq {c : Buf} {n : ℕ} (h : n < c.size) : countUp c n = some (addCounts c [n]) := by
  unfold countUp
  rw [Buf.load_eq h]
  simp only [Option.bind_eq_bind,Option.bind_some]
  rw [Buf.store_eq _ h]
  congr 1
  refine Buf.ext_byte rfl fun i hi => ?_
  have hi' : i < c.size := hi
  rw [addCounts_byte _ hi',Buf.set_byte,List.count_singleton]
  by_cases hin : i = n
  · subst hin
    simp [h]
  · simp [hin,Ne.symm hin]

/-- The numbers counted by a traversal that expands the directories of `ds`. -/
def Globals.counted (g : Globals) (img : Buf) (ds : List ℕ) : List ℕ := ds.flatMap (g.named img)

theorem addCounts_accumulator (n : ℕ) : Accumulator addCounts fun c => c.size = n where
  nil := addCounts_nil
  append := addCounts_addCounts
  perm c _ _ h := addCounts_congr c fun i => h.count_eq i
  ok _ _ hc := hc

theorem countUp_adds {n : ℕ} {img : Buf} {fails : Prop} {e : DirEntry} (he : e.inode < n) :
    Adds addCounts (fun c => c.size = n) img fails (fun c => inBounds (countUp c e.inode)) [e.inode] := by
  intro c d hc hd
  dsimp only
  rw [countUp_eq (by omega)]
  exact Or.inl ⟨d,rfl,hd⟩

theorem countEntry_stays {n : ℕ} {img : Buf} {fails : Prop} {i count : ℕ} {e : DirEntry} (he : e.inode < n)
    {visit : Buf → Fsck Buf} (h : ¬ ((i ≠ 0 ∨ 2 ≤ count) ∧ dirIsDir e = true)) :
    Adds addCounts (fun c => c.size = n) img fails (fun counts => do
      let counts ← inBounds (countUp counts e.inode)
      if i ≠ 0 ∨ 2 ≤ count then
        if dirIsDir e then visit counts else pure counts
      else pure counts) [e.inode] := by
  have ha := addCounts_accumulator n
  have hpure : (fun counts : Buf => if i ≠ 0 ∨ 2 ≤ count then
      if dirIsDir e then visit counts else pure counts else pure counts) =
      (pure : Buf → Fsck Buf) := by
    funext counts
    split
    · split
      · exact absurd ⟨‹_›,‹_›⟩ h
      · rfl
    · rfl
  have h₁ : Adds addCounts (fun c => c.size = n) img fails
      (fun c => inBounds (countUp c e.inode) >>= pure) ([e.inode] ++ []) :=
    (countUp_adds he).bind ha (.pure ha)
  rw [← hpure] at h₁
  exact h₁

theorem countEntry_descends {n : ℕ} {img : Buf} {fails : Prop} {i count : ℕ} {e : DirEntry} (he : e.inode < n)
    {visit : Buf → Fsck Buf} {l : List ℕ} (h : (i ≠ 0 ∨ 2 ≤ count) ∧ dirIsDir e = true)
    (hv : Adds addCounts (fun c => c.size = n) img fails visit l) :
    Adds addCounts (fun c => c.size = n) img fails (fun counts => do
      let counts ← inBounds (countUp counts e.inode)
      if i ≠ 0 ∨ 2 ≤ count then
        if dirIsDir e then visit counts else pure counts
      else pure counts) ([e.inode] ++ l) := by
  simp only [if_pos h.1,if_pos h.2]
  exact (countUp_adds he).bind (addCounts_accumulator n) hv

theorem directoryTraversor_adds {g : Globals} {img : Buf} {E : ℕ → List (List (ℕ × DirEntry))} {n d : ℕ}
    {ds : List ℕ} (hu : Unfolds (fun y => subdirsIn (E y)) [d] ds) :
    (∀ y ∈ ds, FindsDir g img y (E y) ∧ ∀ x ∈ namedIn (E y), x < n) → ∀ fuel, ds.length ≤ fuel →
    Adds addCounts (fun c => c.size = n) img False (fun c => directoryTraversor g fuel c d)
      (ds.flatMap fun y => namedIn (E y)) := by
  have ha := addCounts_accumulator n
  refine hu.tree_induction (P := fun d ds => (∀ y ∈ ds, FindsDir g img y (E y) ∧
    ∀ x ∈ namedIn (E y), x < n) → ∀ fuel, ds.length ≤ fuel →
    Adds addCounts (fun c => c.size = n) img False (fun c => directoryTraversor g fuel c d)
      (ds.flatMap fun y => namedIn (E y))) ?_
  intro x l hl ih hok fuel hfuel
  obtain ⟨fuel,rfl⟩ : ∃ n, fuel = n+1 := ⟨fuel-1,by simp only [List.length_cons] at hfuel; omega⟩
  have hfuel' : l.length ≤ fuel := by simpa using hfuel
  obtain ⟨⟨inode,blk,hread,hE,hblocks⟩,hlt⟩ := hok x (by simp)
  rw [hE] at hl hlt
  have hdir := adds_directory ha hblocks (fun y => subdirsIn (E y)) dirIsDir (fun y => namedIn (E y))
    (fun e => [e.inode]) (fun _ => []) (fun _ => pure) (fun i count _ entry counts => do
      let counts ← inBounds (countUp counts entry.inode)
      if i ≠ 0 ∨ 2 ≤ count then
        if dirIsDir entry then directoryTraversor g fuel counts entry.inode else pure counts
      else pure counts) (fun _ _ => .pure ha)
    (fun e he _ _ _ hd => countEntry_stays (hlt e.inode he) hd)
    (fun e he _ _ _ hc hd hk l' hl' hlen hmem => countEntry_descends (hlt e.inode he) ⟨hc,hd⟩
      (ih e.inode l' (by rw [hE]; exact hk) hl' hlen hmem (fun y hy => hok y (by simp [hmem y hy])) fuel
        (by omega))) hl
  have hnamed : (inode.iBlock.takeWhile (· ≠ 0)).flatMap (fun _ => ([] : List ℕ)) ++
      (entriesBy inode blk).flatten.flatMap (fun p => [p.2.inode]) = namedIn (entriesBy inode blk) := by
    rw [namedIn,List.map_eq_flatMap]
    simp
  rw [hnamed] at hdir
  intro c dev hc hd
  have h := hdir c dev hc hd
  simp only [pure_bind] at h
  dsimp only
  rw [directoryTraversor,bind_ok (hread dev hd),List.flatMap_cons,hE]
  exact h

theorem directoryTraversor_run {g : Globals} (hg : Geometry g) {dev : Device}
    (hf : g.Fits dev.image) {d : ℕ} {ds : List ℕ} (hu : Unfolds (g.subdirs dev.image) [d] ds)
    (hok : ∀ y ∈ ds, DirOk g dev.image y) (fuel : ℕ) (hfuel : ds.length ≤ fuel) (counts : Buf)
    (hc : counts.size = g.superBlock.sInodesCount+1) :
    (directoryTraversor g fuel counts d).run dev =
      .ok (addCounts counts (g.counted dev.image ds)) dev := by
  have hadds := directoryTraversor_adds (E := g.dirEntries dev.image) hu
    (fun y hy => ⟨(hok y hy).finds hg hf,fun x hx => Nat.lt_succ_of_le ((hok y hy).named_le x hx)⟩) fuel hfuel
  obtain ⟨d',hrun,_⟩ | ⟨hfalse,_⟩ := hadds counts dev hc rfl
  · rw [(directoryTraversor_readOnly g fuel counts d).state_eq hrun] at hrun
    exact hrun
  · exact hfalse.elim

theorem Geometry.inodesCount_succ_lt {g : Globals} (hg : Geometry g) : g.superBlock.sInodesCount+1 < 2^32 := by
  have h₁ := hg.inodes_le
  have hp := hg.group_pos
  by_cases h : g.superBlock.sInodesPerGroup = 1
  · have h₂ := hg.desc_lt
    simp only [Globals.inodeGroups,h,groupDescSize,Nat.div_one,Nat.add_sub_cancel] at h₂
    omega
  · omega

theorem calloc_inodes {g : Globals} (hg : Geometry g) :
    calloc (g.superBlock.sInodesCount+1) = Buf.zero (g.superBlock.sInodesCount+1) := by
  rw [calloc,u32_eq hg.inodesCount_succ_lt]

theorem addCounts_zero_byte {n i : ℕ} (l : List ℕ) (h : i < n) :
    (addCounts (Buf.zero n) l).byte i = BitVec.ofNat 8 (l.count i) := by
  rw [addCounts_byte l (by simpa using h)]
  simp

end MyFsck
