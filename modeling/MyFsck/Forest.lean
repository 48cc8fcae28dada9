import MyFsck.LeftBehind
import MyFsck.Tree
import Mathlib.Algebra.Order.BigOperators.Group.Finset

/-! The allocated inodes that the tree does not name, by every entry in use and by the modes of the
inodes. Where the entries in use stand in front and have the right types, they are the orphans that the
scan of `pass2` deals with. -/
namespace MyFsck

open ByteBuffer ErrorState Unfolding

section Defs

variable (g : Globals) (img : Buf)

/-- An allocated inode that is not the root and that no entry of the tree names, the dots left out. -/
def Globals.Unreferenced (i : ℕ) : Prop := g.Allocated img i ∧ ¬ g.InUseBy img i

def Globals.LooseDir (x : ℕ) : Prop := g.Unreferenced img x ∧ inodeIsDir (g.inodeAt img x) = true

/-- The directories of the file system, in the tree or not. -/
def Globals.AnyDir (x : ℕ) : Prop := g.InTree img x ∨ g.LooseDir img x

/-- An unreferenced inode that no other unreferenced directory names, its dots left out. -/
def Globals.ForestRoot (i : ℕ) : Prop :=
  g.Unreferenced img i ∧ ∀ y, g.LooseDir img y → y ≠ i → i ∉ (g.children img y).map DirEntry.inode

/-- The unreferenced directory `r` leads to a directory that names `i`. -/
def Globals.Below (r i : ℕ) : Prop :=
  g.LooseDir img r ∧ ∃ z, Reach (g.dirsBelow img) r z ∧ i ∈ (g.children img z).map DirEntry.inode

open Classical in
/-- The number of entries in use, in the tree or not, that name inode `i`. -/
noncomputable def Globals.namings (i : ℕ) : ℕ :=
  ∑ x ∈ (Finset.Icc 1 g.superBlock.sInodesCount).filter (g.AnyDir img), (g.usedNames img x).count i

/-- The directory `x` begins with its dots, the second of which names `p`; the first takes 12 bytes. -/
def Globals.DotsAt (p x : ℕ) : Prop := ∃ e e' es ls,
  g.slots img x = ((0,e)::(firstEntryLen,e')::es)::ls ∧ e.inode = x ∧ e'.inode = p

/-- A well-formed file system whose unreferenced inodes are directories and regular files that form a
forest: every directory has blocks of its own, the directories of the tree have one name each, and
an unreferenced directory begins with its right dots and names unreferenced inodes only, each of which
has no other name. -/
structure LooseForest : Prop where
  dirs : ∀ x, g.AnyDir img x → FormedDir g img x
  acyclic : Acyclic (g.dirsBelow img) rootInodeNum
  once : KidOnce (g.dirsBelow img) rootInodeNum
  root_dots : g.DotsAt img rootInodeNum rootInodeNum
  referenced : ∀ x, g.InTree img x → ∀ n ∈ g.usedNames img x, g.InUseBy img n
  lostFound : ∀ L, g.lostFound img = some L → g.InTree img L ∧ L ≠ rootInodeNum
  kind : ∀ x, g.Unreferenced img x →
    inodeIsDir (g.inodeAt img x) = true ∨ inodeIsReg (g.inodeAt img x) = true
  kids : ∀ x, g.LooseDir img x → ∀ e ∈ g.children img x, g.Unreferenced img e.inode
  loose_acyclic : ∀ x, g.LooseDir img x → Acyclic (g.dirsBelow img) x
  one_parent : ∀ x y, g.LooseDir img x → g.LooseDir img y →
    ∀ z ∈ (g.children img x).map DirEntry.inode, z ∈ (g.children img y).map DirEntry.inode → x = y
  one_name : ∀ x, g.LooseDir img x → ((g.children img x).map DirEntry.inode).Nodup
  dots : ∀ x, g.LooseDir img x → ∃ p, g.DotsAt img p x ∧
    (∀ y, g.LooseDir img y → x ∈ (g.children img y).map DirEntry.inode → p = y) ∧
    (g.ForestRoot img x → ¬ g.Unreferenced img p)
  blocks_nodup : ∀ x, g.AnyDir img x → (g.dirData img x).Nodup
  blocks_disjoint : ∀ x y, g.AnyDir img x → g.AnyDir img y → x ≠ y →
    ∀ b ∈ g.dirData img x, b ∉ g.dirData img y
  first_lt : ∀ x, g.Unreferenced img x → g.firstBlock img x < g.superBlock.sBlocksCount
  first_apart : ∀ x, g.Unreferenced img x → ∀ y, g.AnyDir img y → y ≠ x →
    g.firstBlock img x ∉ g.dirData img y
  table_apart : ∀ b, (∃ x, g.Unreferenced img x ∧ b = g.firstBlock img x) ∨
    (∃ x, g.AnyDir img x ∧ b ∈ g.dirData img x) →
    ∀ i, 1 ≤ i → i ≤ g.superBlock.sInodesCount → b ≠ g.inodeBlock i

/-- In every directory the entries in use stand in front, and their types fit the modes of the inodes. -/
structure AllSeen : Prop where
  used_first : ∀ x, g.AnyDir img x → g.UsedFirst img x
  types : ∀ x, g.AnyDir img x → ∀ e ∈ g.children img x,
    dirIsDir e = inodeIsDir (g.inodeAt img e.inode)

end Defs

section Seen

variable {g : Globals} {img : Buf} {x i : ℕ}

theorem LooseForest.loose_reach (h : LooseForest g img) {y : ℕ} (hx : g.LooseDir img x)
    (hr : Reach (g.dirsBelow img) x y) : g.LooseDir img y := by
  induction hr with
  | refl => exact hx
  | tail _ hk ih =>
    obtain ⟨hk,hd⟩ := List.mem_filter.mp hk
    obtain ⟨e,he,rfl⟩ := List.mem_map.mp hk
    exact ⟨h.kids _ ih e he,hd⟩

theorem LooseForest.dirBlocks_eq (h : LooseForest g img) (hx : g.AnyDir img x) : g.dirBlocks img x = g.dirData img x :=
  (h.dirs x hx).dirBlocks_eq

theorem LooseForest.dirEntries_dots (h : LooseForest g img) (hx : g.AnyDir img x) {p : ℕ} (hd : g.DotsAt img p x) :
    ∃ e e' es ls, g.dirEntries img x = ((0,e)::(firstEntryLen,e')::es)::ls ∧ e.inode = x ∧
      e'.inode = p := by
  obtain ⟨e,e',es,ls,hslots,he,he'⟩ := hd
  obtain ⟨q,q',es',ls',hslots',hq,hq'⟩ := (h.dirs x hx).begins
  rw [hslots] at hslots'
  cases hslots'
  refine ⟨e,e',es.takeWhile inUse,ls.map (List.takeWhile inUse),?_,he,he'⟩
  rw [(h.dirs x hx).dirEntries_eq,hslots,List.map_cons,List.takeWhile_cons_of_pos hq,
    List.takeWhile_cons_of_pos hq']

namespace AllSeen

variable (hs : AllSeen g img) (h : LooseForest g img)
include hs h

theorem seenTree : SeenTree g img :=
  ⟨fun x hx => h.dirs x (Or.inl hx),fun x hx => hs.used_first x (Or.inl hx),
    fun x hx => hs.types x (Or.inl hx)⟩

theorem nonDot_eq (hx : g.AnyDir img x) : g.nonDot img x = g.children img x :=
  (h.dirs x hx).nonDot_children (hs.used_first x hx)

theorem named_eq (hx : g.AnyDir img x) : g.named img x = g.usedNames img x :=
  (h.dirs x hx).named_eq (hs.used_first x hx)

theorem subdirs_eq (hx : g.AnyDir img x) : g.subdirs img x = g.dirsBelow img x :=
  (h.dirs x hx).subdirs_eq (hs.used_first x hx) (hs.types x hx)

theorem reach_iff : Reach (g.subdirs img) rootInodeNum x ↔ g.InTree img x :=
  (hs.seenTree h).reach_subdirs

theorem linked_iff : g.Linked img i ↔ g.InUseBy img i := by
  refine or_congr_right (exists_congr fun d => ?_)
  rw [hs.reach_iff h]
  exact and_congr_right fun hd => by rw [hs.nonDot_eq h (Or.inl hd)]

theorem orphan_iff : g.Orphan img i ↔ g.Unreferenced img i :=
  and_congr_right fun _ => not_congr (hs.linked_iff h)

theorem orphanDir_iff : g.OrphanDir img x ↔ g.LooseDir img x := and_congr_left fun _ => hs.orphan_iff h

theorem known_iff : g.Known img x ↔ g.AnyDir img x := or_congr (hs.reach_iff h) (hs.orphanDir_iff h)

theorem topmost_iff : g.Topmost img i ↔ g.ForestRoot img i := by
  refine and_congr (hs.orphan_iff h) (forall_congr' fun y => ?_)
  rw [hs.orphanDir_iff h]
  exact forall_congr' fun hy => by rw [hs.nonDot_eq h (Or.inr hy)]

theorem reach_loose {y : ℕ} (hx : g.LooseDir img x) :
    Reach (g.subdirs img) x y ↔ Reach (g.dirsBelow img) x y :=
  Reach.congr fun _ hz => hs.subdirs_eq h (Or.inr (h.loose_reach hx hz))

theorem above_iff {r : ℕ} : g.Above img r i ↔ g.Below img r i := by
  unfold Globals.Above Globals.Below
  rw [hs.orphanDir_iff h]
  refine and_congr_right fun hr => exists_congr fun z => ?_
  rw [hs.reach_loose h hr]
  exact and_congr_right fun hz => by rw [hs.nonDot_eq h (Or.inr (h.loose_reach hr hz))]

theorem orphanForest : OrphanForest g img where
  tree := (hs.seenTree h).dirTree h.acyclic
  root_ne hnil := by
    have hroot : g.AnyDir img rootInodeNum := Or.inl .refl
    obtain ⟨e,e',es,ls,hent,-⟩ := h.dirEntries_dots hroot h.root_dots
    rw [Globals.dirEntries,hnil] at hent
    cases hent
  closed d hd n hn := by
    rw [hs.reach_iff h] at hd
    rw [hs.named_eq h (Or.inl hd)] at hn
    exact (hs.linked_iff h).mpr (h.referenced d hd n hn)
  lostFound L hL := by
    obtain ⟨hLt,hne⟩ := h.lostFound L hL
    refine ⟨(hs.reach_iff h).mpr hLt,hne,?_⟩
    obtain ⟨p,q,es,ls,hslots,hp,hq⟩ := (h.dirs L (Or.inl hLt)).begins
    refine ⟨linkOf p,linkOf q,(es.takeWhile inUse).map linkOf,
      (ls.map (List.takeWhile inUse)).map (List.map linkOf),?_⟩
    rw [Globals.links,(h.dirs L (Or.inl hLt)).dirEntries_eq,hslots,List.map_cons,List.map_cons,
      List.takeWhile_cons_of_pos hp,List.takeWhile_cons_of_pos hq]
    rfl
  kind x hx := h.kind x ((hs.orphan_iff h).mp hx)
  dir_ok x hx := (h.dirs x (Or.inr ((hs.orphanDir_iff h).mp hx))).dirOk
  dots x hx := by
    have hx' := (hs.orphanDir_iff h).mp hx
    obtain ⟨p,hp,-⟩ := h.dots x hx'
    obtain ⟨e,e',es,ls,hent,-⟩ := h.dirEntries_dots (Or.inr hx') hp
    exact ⟨e,e',es,ls,hent⟩
  kids x hx e he := by
    have hx' := (hs.orphanDir_iff h).mp hx
    rw [hs.nonDot_eq h (Or.inr hx')] at he
    exact ⟨(hs.orphan_iff h).mpr (h.kids x hx' e he),hs.types x (Or.inr hx') e he⟩
  acyclic x hx := by
    have hx' := (hs.orphanDir_iff h).mp hx
    exact (h.loose_acyclic x hx').of_sub fun y hy k hk =>
      hs.subdirs_eq h (Or.inr (h.loose_reach hx' ((hs.reach_loose h hx').mp hy))) ▸ hk
  one_parent x y hx hy := by
    have hx' := (hs.orphanDir_iff h).mp hx
    have hy' := (hs.orphanDir_iff h).mp hy
    rw [hs.nonDot_eq h (Or.inr hx'),hs.nonDot_eq h (Or.inr hy')]
    exact h.one_parent x y hx' hy'
  one_name x hx := by
    have hx' := (hs.orphanDir_iff h).mp hx
    rw [hs.nonDot_eq h (Or.inr hx')]
    exact h.one_name x hx'
  blocks_nodup x hx := by
    have hx' := (hs.known_iff h).mp hx
    rw [h.dirBlocks_eq hx']
    exact h.blocks_nodup x hx'
  blocks_disjoint x y hx hy := by
    have hx' := (hs.known_iff h).mp hx
    have hy' := (hs.known_iff h).mp hy
    rw [h.dirBlocks_eq hx',h.dirBlocks_eq hy']
    exact h.blocks_disjoint x y hx' hy'
  first_lt x hx := h.first_lt x ((hs.orphan_iff h).mp hx)
  first_apart x hx y hy := by
    have hy' := (hs.known_iff h).mp hy
    rw [h.dirBlocks_eq hy']
    exact h.first_apart x ((hs.orphan_iff h).mp hx) y hy'
  table_apart b hb := by
    refine h.table_apart b ?_
    rcases hb with ⟨x,hx,he⟩ | ⟨x,hx,hmem⟩
    · exact Or.inl ⟨x,(hs.orphan_iff h).mp hx,he⟩
    · have hx' := (hs.known_iff h).mp hx
      exact Or.inr ⟨x,hx',h.dirBlocks_eq hx' ▸ hmem⟩

theorem orphanDots : OrphanDots g img where
  dots x hx := by
    have hx' := (hs.orphanDir_iff h).mp hx
    obtain ⟨p,hp,hparent,hroot⟩ := h.dots x hx'
    obtain ⟨e,e',es,ls,hent,he,he'⟩ := h.dirEntries_dots (Or.inr hx') hp
    refine ⟨p,⟨dirIsDir e,dirIsDir e',es.map linkOf,ls.map (List.map linkOf),?_⟩,fun y hy hmem => ?_,
      fun htop ho => hroot ((hs.topmost_iff h).mp htop) ((hs.orphan_iff h).mp ho)⟩
    · rw [Globals.links,hent,List.map_cons,List.map_cons,List.map_cons,linkOf,linkOf]
      dsimp only
      rw [he,he']
    · have hy' := (hs.orphanDir_iff h).mp hy
      rw [hs.nonDot_eq h (Or.inr hy')] at hmem
      exact hparent y hy' hmem

end AllSeen

end Seen

section Met

variable {g : Globals} {img : Buf}

theorem OrphanForest.topmost_unique (h : OrphanForest g img) {a b y : ℕ} (ha : g.Topmost img a)
    (hb : g.Topmost img b) (had : g.OrphanDir img a) (hbd : g.OrphanDir img b)
    (hay : Reach (g.subdirs img) a y) (hby : Reach (g.subdirs img) b y) : a = b := by
  induction hay with
  | refl => exact h.topmost_reach ha hbd hby
  | @tail z y haz hk ih =>
    rcases Relation.ReflTransGen.cases_tail hby with rfl | ⟨z',hbz,hk'⟩
    · exact (h.topmost_reach hb had (haz.tail hk)).symm
    · have hz : z = z' := h.one_parent z z' (h.reach_orphan had haz) (h.reach_orphan hbd hbz) y
        (subdirs_named_nonDot hk) (subdirs_named_nonDot hk')
      exact ih (hz ▸ hbz)

theorem Globals.Above.orphan (h : OrphanForest g img) {y x : ℕ} (ha : g.Above img y x) :
    g.Orphan img x := by
  obtain ⟨hy,z,hz,hx⟩ := ha
  obtain ⟨e,he,rfl⟩ := List.mem_map.mp hx
  exact (h.kids z (h.reach_orphan hy hz) e he).1

theorem OrphanForest.above_unique (h : OrphanForest g img) {a b x : ℕ} (ha : g.Topmost img a)
    (hb : g.Topmost img b) (hax : g.Above img a x) (hbx : g.Above img b x) : a = b := by
  obtain ⟨had,z,hz,hx⟩ := hax
  obtain ⟨hbd,z',hz',hx'⟩ := hbx
  obtain rfl := h.one_parent z z' (h.reach_orphan had hz) (h.reach_orphan hbd hz') x hx hx'
  exact h.topmost_unique ha hb had hbd hz hz'

theorem OrphanForest.tree_nodup (h : OrphanForest g img) {x : ℕ} (hx : g.OrphanDir img x) :
    (g.treeOf img x).Nodup := by
  refine (treeOf_unfolds (h.unfolds hx)).nodup_iff.mpr ⟨fun a ha => ?_,fun a b ha hb hab y hya hyb => ?_⟩
  · exact (h.one_name a (h.reach_orphan hx ha)).sublist (List.filter_sublist.map _)
  · exact hab (h.one_parent a b (h.reach_orphan hx ha) (h.reach_orphan hx hb) y
      (subdirs_named_nonDot hya) (subdirs_named_nonDot hyb))

theorem mem_metBefore {k i : ℕ} : i ∈ g.metBefore img k ↔
    i ∈ g.counted img (g.treeOf img rootInodeNum) ∨
      ∃ j < k, (g.Topmost img j ∧ (g.metBefore img j).count j % 256 = 0 ∧
        inodeIsDir (g.inodeAt img j) = true) ∧ i ∈ g.counted img (g.treeOf img j) := by
  induction k with
  | zero => simp [Globals.metBefore]
  | succ k ih =>
    rw [Globals.metBefore,List.mem_append,ih,or_assoc]
    refine or_congr_right ?_
    constructor
    · rintro (⟨j,hj,h⟩ | h)
      · exact ⟨j,by omega,h⟩
      · split at h
        · exact ⟨k,Nat.lt_succ_self k,‹_›,h⟩
        · cases h
    · rintro ⟨j,hj,hc,h⟩
      rcases Nat.lt_succ_iff_lt_or_eq.mp hj with hj | rfl
      · exact Or.inl ⟨j,hj,hc,h⟩
      · rw [if_pos hc]
        exact Or.inr h

/-- The directories whose names are met before inode `k`, each once. -/
theorem OrphanForest.metBefore_dirs (h : OrphanForest g img)
    (hroot : (g.treeOf img rootInodeNum).Nodup) (k : ℕ) : ∃ ds : List ℕ, ds.Nodup ∧
      (∀ x ∈ ds, g.Known img x) ∧ (∀ x ∈ ds, g.OrphanDir img x →
        ∃ r < k, g.Topmost img r ∧ g.OrphanDir img r ∧ Reach (g.subdirs img) r x) ∧
      g.metBefore img k = ds.flatMap (g.named img) := by
  induction k with
  | zero =>
    obtain ⟨ds,hds,_⟩ := h.tree.unfolds
    have hu := treeOf_unfolds ⟨ds,hds⟩
    exact ⟨_,hroot,fun x hx => Or.inl (hu.mem_iff.mp hx),
      fun x hx ho => absurd ho.1 (not_orphan_of_reach (hu.mem_iff.mp hx)),rfl⟩
  | succ k ih =>
    obtain ⟨ds,hnd,hknown,horigin,hmet⟩ := ih
    have hbefore : ∀ x ∈ ds, g.OrphanDir img x →
        ∃ r < k+1, g.Topmost img r ∧ g.OrphanDir img r ∧ Reach (g.subdirs img) r x := by
      intro x hx hxd
      obtain ⟨r,hr,hr'⟩ := horigin x hx hxd
      exact ⟨r,by omega,hr'⟩
    by_cases hk : g.Topmost img k ∧ (g.metBefore img k).count k % 256 = 0 ∧
        inodeIsDir (g.inodeAt img k) = true
    · have hkd : g.OrphanDir img k := ⟨hk.1.1,hk.2.2⟩
      have hu := treeOf_unfolds (h.unfolds hkd)
      have hreach : ∀ x ∈ g.treeOf img k, Reach (g.subdirs img) k x := fun x hx => hu.mem_iff.mp hx
      refine ⟨ds ++ g.treeOf img k,hnd.append (h.tree_nodup hkd) fun x hxds hxk => ?_,
        fun x hx => ?_,fun x hx hxd => ?_,?_⟩
      · have hr := hreach x hxk
        obtain ⟨r,hrk,hrt,hrd,hrx⟩ := horigin x hxds (h.reach_orphan hkd hr)
        exact hrk.ne (h.topmost_unique hrt hk.1 hrd hkd hrx hr)
      · rcases List.mem_append.mp hx with hx | hx
        · exact hknown x hx
        · exact Or.inr (h.reach_orphan hkd (hreach x hx))
      · rcases List.mem_append.mp hx with hx | hx
        · exact hbefore x hx hxd
        · exact ⟨k,Nat.lt_succ_self k,hk.1,hkd,hreach x hx⟩
      · rw [Globals.metBefore,if_pos hk,hmet,List.flatMap_append,Globals.counted]
    · refine ⟨ds,hnd,hknown,hbefore,?_⟩
      rw [Globals.metBefore,if_neg hk,hmet,List.append_nil]

open Classical in
theorem OrphanForest.count_named_le (h : OrphanForest g img) {ds : List ℕ} (hnd : ds.Nodup)
    (hknown : ∀ x ∈ ds, g.Known img x) (i : ℕ) : (ds.flatMap (g.named img)).count i ≤
      ∑ x ∈ (Finset.Icc 1 g.superBlock.sInodesCount).filter (g.Known img), (g.named img x).count i := by
  have hsum : (ds.flatMap (g.named img)).count i = ∑ x ∈ ds.toFinset, (g.named img x).count i := by
    rw [List.count_flatMap,List.sum_toFinset _ hnd]
    rfl
  rw [hsum]
  refine Finset.sum_le_sum_of_subset fun x hx => ?_
  have hx' := hknown x (List.mem_toFinset.mp hx)
  have hok := h.known_le hx'
  exact Finset.mem_filter.mpr ⟨Finset.mem_Icc.mpr ⟨hok.num_pos,hok.num_le⟩,hx'⟩

open Classical in
theorem OrphanForest.metBefore_count_le (h : OrphanForest g img)
    (hroot : (g.treeOf img rootInodeNum).Nodup) (k i : ℕ) : (g.metBefore img k).count i ≤
      ∑ x ∈ (Finset.Icc 1 g.superBlock.sInodesCount).filter (g.Known img), (g.named img x).count i := by
  obtain ⟨ds,hnd,hknown,-,hmet⟩ := h.metBefore_dirs hroot k
  rw [hmet]
  exact h.count_named_le hnd hknown i

theorem OrphanDots.named_eq (hd : OrphanDots g img) {x : ℕ} (hx : g.OrphanDir img x) :
    ∃ p, g.named img x = x::p::(g.nonDot img x).map DirEntry.inode ∧
      (∀ y, g.OrphanDir img y → x ∈ (g.nonDot img y).map DirEntry.inode → p = y) ∧
      (g.Topmost img x → ¬ g.Orphan img p) := by
  obtain ⟨p,⟨b,b',t,ls,hls⟩,hp⟩ := hd.dots x hx
  exact ⟨p,by rw [named_links,named_of_dots hls,nonDot_inodes],hp⟩

/-- On the walk through the tree of a topmost orphan, of the orphans itself and those below are met. -/
theorem OrphanForest.mem_counted (h : OrphanForest g img) (hd : OrphanDots g img) {j i : ℕ}
    (hj : g.Topmost img j) (hjd : g.OrphanDir img j) (hi : g.Orphan img i) :
    i ∈ g.counted img (g.treeOf img j) ↔ i = j ∨ g.Above img j i := by
  have hu := treeOf_unfolds (h.unfolds hjd)
  have hself : ∀ y, Reach (g.subdirs img) j y → y = j ∨ g.Above img j y := fun y hy => by
    by_cases hjy : j = y
    · exact Or.inl hjy.symm
    · exact Or.inr (above_of_reach hjd hy hjy)
  constructor
  · intro hmem
    obtain ⟨y,hy,hmem⟩ := List.mem_flatMap.mp hmem
    have hy := hu.mem_iff.mp hy
    have hyd := h.reach_orphan hjd hy
    obtain ⟨p,hp,hparent,htop⟩ := hd.named_eq hyd
    rw [hp,List.mem_cons,List.mem_cons] at hmem
    rcases hmem with rfl | rfl | hmem
    · exact hself i hy
    · rcases Relation.ReflTransGen.cases_tail hy with rfl | ⟨z,hz,hk⟩
      · exact absurd hi (htop hj)
      · obtain rfl := hparent z (h.reach_orphan hjd hz) (subdirs_named_nonDot hk)
        exact hself i hz
    · exact Or.inr ⟨hjd,y,hy,hmem⟩
  · rintro (rfl | ⟨_,z,hz,hmem⟩)
    · obtain ⟨p,hp,-⟩ := hd.named_eq hjd
      exact List.mem_flatMap.mpr ⟨i,hu.mem_iff.mpr .refl,by rw [hp]; exact List.mem_cons_self⟩
    · obtain ⟨p,hp,-⟩ := hd.named_eq (h.reach_orphan hjd hz)
      refine List.mem_flatMap.mpr ⟨z,hu.mem_iff.mpr hz,?_⟩
      rw [hp]
      exact List.mem_cons_of_mem _ (List.mem_cons_of_mem _ hmem)

theorem OrphanForest.not_counted (h : OrphanForest g img) {i : ℕ} (hi : g.Orphan img i) :
    i ∉ g.counted img (g.treeOf img rootInodeNum) := by
  obtain ⟨ds,hds,_⟩ := h.tree.unfolds
  intro hmem
  obtain ⟨y,hy,hmem⟩ := List.mem_flatMap.mp hmem
  exact hi.2 (h.closed y ((treeOf_unfolds ⟨ds,hds⟩).mem_iff.mp hy) i hmem)

theorem OrphanForest.topmost_not_met (h : OrphanForest g img) (hd : OrphanDots g img) {r : ℕ}
    (hr : g.Topmost img r) : r ∉ g.metBefore img r := by
  intro hmem
  rcases mem_metBefore.mp hmem with hmem | ⟨j,hj,⟨hjt,-,hjd⟩,hmem⟩
  · exact h.not_counted hr.1 hmem
  · rcases (h.mem_counted hd hjt ⟨hjt.1,hjd⟩ hr.1).mp hmem with rfl | habove
    · exact Nat.lt_irrefl _ hj
    · exact h.not_above hr j habove

/-- Every inode that is not topmost is met in time if and only if every orphan below a topmost one has
the larger number. -/
theorem OrphanForest.met_iff (h : OrphanForest g img) (hd : OrphanDots g img)
    (hlinked : ∀ i, g.Linked img i → i ∈ g.counted img (g.treeOf img rootInodeNum))
    (hlt : ∀ i k, (g.metBefore img k).count i < 256) :
    (∀ i, g.Allocated img i → ¬ g.Topmost img i → (g.metBefore img i).count i % 256 ≠ 0) ↔
      ∀ r i, g.Topmost img r → g.Above img r i → r < i := by
  have hmet : ∀ i, (g.metBefore img i).count i % 256 ≠ 0 ↔ i ∈ g.metBefore img i := fun i => by
    rw [Nat.mod_eq_of_lt (hlt i i),Ne,List.count_eq_zero,not_not]
  constructor
  · intro hall r i hr habove
    have hi : g.Orphan img i := habove.orphan h
    have hmem := (hmet i).mp (hall i hi.1 fun hit => h.not_above hit r habove)
    rcases mem_metBefore.mp hmem with hmem | ⟨j,hj,⟨hjt,-,hjd⟩,hmem⟩
    · exact absurd hmem (h.not_counted hi)
    · rcases (h.mem_counted hd hjt ⟨hjt.1,hjd⟩ hi).mp hmem with rfl | hjabove
      · exact absurd hj (Nat.lt_irrefl _)
      · rw [h.above_unique hr hjt habove hjabove]
        exact hj
  · intro hall i hal hnt
    refine (hmet i).mpr (mem_metBefore.mpr ?_)
    by_cases hi : g.Linked img i
    · exact Or.inl (hlinked i hi)
    · obtain ⟨r,hr,rfl | habove⟩ := h.exists_topmost ⟨hal,hi⟩
      · exact absurd hr hnt
      · have hzero : (g.metBefore img r).count r % 256 = 0 := by
          rw [List.count_eq_zero.mpr (h.topmost_not_met hd hr)]
        exact Or.inr ⟨r,hall r i hr habove,⟨hr,hzero,habove.1.2⟩,
          (h.mem_counted hd hr habove.1 ⟨hal,hi⟩).mpr (Or.inr habove)⟩

theorem OrphanForest.count_tree_known (h : OrphanForest g img) (hd : OrphanDots g img) {A : List ℕ}
    {k i : ℕ} (hk : g.OrphanDir img k) (hkA : k ∉ A) (hi : ¬ g.Orphan img i)
    (hiL : ∀ y ∈ A, g.lostFound img ≠ some i) :
    ((g.treeOf img k).flatMap (g.namedAfter img A)).count i = (g.named img k).count i := by
  obtain ⟨l,hl,hkids⟩ := (treeOf_unfolds (h.unfolds hk)).node_inv
  have hbelow : ∀ y ∈ l, i ∉ g.namedAfter img A y := by
    intro y hy
    obtain ⟨w,hw,hwy⟩ := hkids.reach_of_mem hy
    have hky : Reach (g.subdirs img) k y := .head hw hwy
    have hyd := h.reach_orphan hk hky
    obtain ⟨z,hkz,hzy⟩ : ∃ z, Reach (g.subdirs img) k z ∧ y ∈ g.subdirs img z := by
      rcases Relation.ReflTransGen.cases_tail hky with rfl | hz
      · exact absurd (Relation.TransGen.head' hw hwy) (h.acyclic y hk y .refl)
      · exact hz
    have hzd := h.reach_orphan hk hkz
    obtain ⟨p,hp,hpar⟩ := hd.namedAfter A hyd
    have hpi : p ≠ i := by
      rintro rfl
      rcases hpar with ⟨hyA,hL⟩ | ⟨hpar,_⟩
      · exact hiL y hyA hL
      · have hpz := hpar z hzd (subdirs_named_nonDot hzy)
        exact hi (hpz ▸ hzd.1)
    rw [hp]
    simp only [List.mem_cons,not_or]
    refine ⟨?_,hpi.symm,fun hmem => ?_⟩
    · rintro rfl
      exact hi hyd.1
    · obtain ⟨e,he,rfl⟩ := List.mem_map.mp hmem
      exact hi (h.kids y hyd e he).1
  have hrest : (l.flatMap (g.namedAfter img A)).count i = 0 := by
    refine List.count_eq_zero.mpr fun hmem => ?_
    obtain ⟨y,hy,hmem⟩ := List.mem_flatMap.mp hmem
    exact hbelow y hy hmem
  rw [hl,List.flatMap_cons,List.count_append,hrest,Nat.add_zero,Globals.namedAfter,
    linksAfter_not_mem hkA,← named_links]

/-- The directories whose names count for an inode of the tree: those of the tree, and those taken in. -/
noncomputable def Globals.countedDirs (g : Globals) (img : Buf) (k : ℕ) : List ℕ :=
  g.treeOf img rootInodeNum ++ (g.scanTo img k).taken.filter fun a => inodeIsDir (g.inodeAt img a)

theorem OrphanForest.scanTo_count_known (h : OrphanForest g img) (hd : OrphanDots g img) {k i : ℕ}
    (hA : ∀ a ∈ (g.scanTo img k).taken, g.Orphan img a) (hi : ¬ g.Orphan img i)
    (hiL : ∀ y ∈ (g.scanTo img k).taken, g.lostFound img ≠ some i) :
    (g.scanTo img k).met.count i = ((g.countedDirs img k).flatMap (g.named img)).count i := by
  induction k with
  | zero => simp [Globals.countedDirs,Globals.scanTo,Globals.counted]
  | succ k ih =>
    have hsub := (@taken_mono g img _ _ (Nat.le_succ k)).subset
    have ih' := ih (fun a ha => hA a (hsub ha)) fun y hy => hiL y (hsub hy)
    have hkA : k ∉ (g.scanTo img k).taken := fun hk => absurd (mem_scanTo.mp hk).1 (Nat.lt_irrefl k)
    by_cases hk : g.Allocated img k ∧ (g.scanTo img k).met.count k % 256 = 0
    · have hnext := scanTo_taken hk.1 hk.2
      have hko : g.Orphan img k := hA k (by rw [hnext]; simp)
      rw [Globals.countedDirs,hnext]
      dsimp only
      rw [List.count_append,ih',List.filter_append,← List.append_assoc,List.flatMap_append,
        List.count_append,Globals.countedDirs]
      congr 1
      by_cases hdir : inodeIsDir (g.inodeAt img k) = true
      · rw [if_pos hdir,h.count_tree_known hd ⟨hko,hdir⟩ hkA hi fun y hy => hiL y (hsub hy)]
        simp [hdir]
      · simp [hdir]
    · rw [Globals.countedDirs,scanTo_skipped hk]
      exact ih'

end Met

section Taken

variable {g : Globals} {img img' : Buf} {A : List ℕ}

theorem Slots.congr {b b' : Buf} {off : ℕ} {es : List (ℕ × DirEntry)} (h : Slots b off es)
    (hb : AgreesFrom off b b') : Slots b' off es := by
  induction h with
  | done =>
    rw [← hb.1]
    exact .done
  | slot h8 hdvd hlive _ ih =>
    have hrest := ih (hb.mono (by omega))
    rw [← hb.entryAt] at h8 hdvd hlive hrest ⊢
    exact .slot h8 hdvd (by rwa [hb.num]) hrest

theorem Slots.cons_inv {b : Buf} {off : ℕ} {p : ℕ × DirEntry} {es : List (ℕ × DirEntry)}
    (h : Slots b off (p::es)) : p = (off,entryAt b off) ∧ 8 ≤ (entryAt b off).recLen ∧
      4 ∣ (entryAt b off).recLen ∧
      (num b.byte off 4 ≠ 0 → 8+(entryAt b off).nameLen ≤ (entryAt b off).recLen) ∧
      Slots b (off+(entryAt b off).recLen) es := by
  cases h with
  | slot h8 hdvd hlive hrest => exact ⟨rfl,h8,hdvd,hlive,hrest⟩

/-- A block that begins with two entries in use, with another number in the second. -/
theorem slotsOf_second {b : Buf} {e e' : DirEntry} {es : List (ℕ × DirEntry)} {v : ℕ} (hw : Whole b)
    (hslots : slotsOf b = (0,e)::(firstEntryLen,e')::es) (he : e.inode ≠ 0) (he' : e'.inode ≠ 0)
    (hv : v < 2^32) : slotsOf (b.putNum firstEntryLen v 4) =
      (0,e)::(firstEntryLen,{ e' with inode := v })::es := by
  unfold Whole at hw
  rw [hslots] at hw
  obtain ⟨he₀,h8,hdvd,hlive,hrest⟩ := hw.cons_inv
  obtain ⟨he₁,h8',hdvd',hlive',hrest'⟩ := hrest.cons_inv
  obtain ⟨-,rfl⟩ := Prod.mk.inj he₀
  obtain ⟨hoff,rfl⟩ := Prod.mk.inj he₁
  rw [← hoff] at h8' hdvd' hlive' hrest' he' ⊢
  have hle := hrest'.le_size
  have hlen := hlive he
  have hsecond := @entryAt_putNum b firstEntryLen v (by omega) hv
  have hfirst : entryAt (b.putNum firstEntryLen v 4) 0 = entryAt b 0 :=
    (entryAt_congr fun i _ hi => (Buf.putNum_byte_out (by omega)).symm).symm
  have hnum : num (b.putNum firstEntryLen v 4).byte 0 4 = num b.byte 0 4 :=
    congrArg DirEntry.inode hfirst
  have hbehind : AgreesFrom (firstEntryLen+(entryAt b firstEntryLen).recLen) b
      (b.putNum firstEntryLen v 4) :=
    ⟨Buf.putNum_size _ _ _ _,fun i hi => Buf.putNum_byte_out (by omega)⟩
  have htail : Slots (b.putNum firstEntryLen v 4) firstEntryLen
      ((firstEntryLen,entryAt (b.putNum firstEntryLen v 4) firstEntryLen)::es) := by
    refine .slot ?_ ?_ (fun _ => ?_) ?_
    · rw [hsecond]
      exact h8'
    · rw [hsecond]
      exact hdvd'
    · rw [hsecond]
      exact hlive' he'
    · rw [hsecond]
      exact hrest'.congr hbehind
  have hall : Slots (b.putNum firstEntryLen v 4) 0 ((0,entryAt (b.putNum firstEntryLen v 4) 0)::
      (firstEntryLen,entryAt (b.putNum firstEntryLen v 4) firstEntryLen)::es) := by
    refine .slot ?_ ?_ (fun _ => ?_) ?_
    · rwa [hfirst]
    · rwa [hfirst]
    · rw [hfirst]
      exact hlen
    · rw [hfirst,← hoff]
      exact htail
  rw [hfirst,hsecond] at hall
  exact hall.slotsOf_eq

theorem TakenIn.dirData_eq (h : LooseForest g img) (ht : TakenIn g img A img') {x : ℕ}
    (hx : g.AnyDir img x) : g.dirData img' x = g.dirData img x := by
  have hd := h.dirs x hx
  have hsize := hd.size_le
  rw [Globals.dirData,ht.inodes x hd.num_pos hd.num_le,Globals.dirData]
  refine List.map_congr_left fun k hk => ?_
  rw [List.mem_range] at hk
  rw [Globals.blockOf,if_pos (by omega),Globals.blockOf,if_pos (by omega)]

/-- What a directory other than `lost+found` names is as it was, after the inodes of `A` were taken
in. -/
theorem TakenIn.children_eq (hg : Geometry g) (h : LooseForest g img) (ht : TakenIn g img A img')
    (hA : ∀ a ∈ A, g.Unreferenced img a) {x : ℕ} (hx : g.AnyDir img x)
    (hxL : g.lostFound img ≠ some x) : g.children img' x = g.children img x := by
  have hd := h.dirs x hx
  have hdata := ht.dirData_eq h hx
  have hother : ∀ L, g.lostFound img = some L → ∀ b ∈ g.dirData img x, b ∉ g.dirBlocks img L := by
    intro L hL b hb
    have hLd : g.AnyDir img L := Or.inl (h.lostFound L hL).1
    rw [(h.dirs L hLd).dirBlocks_eq]
    refine h.blocks_disjoint x L hx hLd ?_ b hb
    rintro rfl
    exact hxL hL
  by_cases hxA : ∃ L, g.lostFound img = some L ∧ x ∈ A ∧ g.LooseDir img x
  · obtain ⟨L,hL,hxA,hxd⟩ := hxA
    obtain ⟨p,⟨e,e',es,ls,hslots,he,he'⟩,-⟩ := h.dots x hxd
    obtain ⟨b,bs,hb⟩ : ∃ b bs, g.dirData img x = b::bs := by
      cases hb : g.dirData img x with
      | nil =>
        rw [Globals.slots,hb] at hslots
        cases hslots
      | cons b bs => exact ⟨b,bs,rfl⟩
    have hbmem : b ∈ g.dirData img x := by simp [hb]
    have hfirst : g.firstBlock img x = b := by
      obtain ⟨l,hl,-⟩ := dirBlocks_cons (hd.dirBlocks_eq.trans hb)
      rw [Globals.firstBlock,hl]
      rfl
    have hbegins : slotsOf (g.blockAt img b) = (0,e)::(firstEntryLen,e')::es := by
      rw [Globals.slots,hb,List.map_cons,List.cons.injEq] at hslots
      exact hslots.1
    have hLd := h.dirs L (Or.inl (h.lostFound L hL).1)
    have hlt := hg.inodesCount_lt
    have hLpos := hLd.num_pos
    have hLle := hLd.num_le
    have he₀ : e.inode ≠ 0 := by
      have := hd.num_pos
      omega
    have hinUse : inUse (0,e) = true ∧ inUse (firstEntryLen,e') = true := by
      obtain ⟨q,q',es',ls',hs,hq,hq'⟩ := hd.begins
      rw [hslots] at hs
      cases hs
      exact ⟨hq,hq'⟩
    have he₁ : e'.inode ≠ 0 := by simpa [inUse] using hinUse.2
    have hblk := ht.first L hL x hxA
    rw [hfirst] at hblk
    have hnew := slotsOf_second (v := L) (hd.whole b hbmem) hbegins he₀ he₁ (by omega)
    rw [← hblk] at hnew
    have hsame : bs.map (fun c => slotsOf (g.blockAt img' c)) =
        bs.map fun c => slotsOf (g.blockAt img c) := by
      refine List.map_congr_left fun c hc => ?_
      have hcmem : c ∈ g.dirData img x := by simp [hb,hc]
      rw [ht.frame c fun L' hL' => ⟨hother L' hL' c hcmem,fun a ha => ?_⟩]
      rintro rfl
      by_cases hxa : x = a
      · subst hxa
        have hnd := h.blocks_nodup x hx
        rw [hb] at hnd
        rw [hfirst] at hc
        exact (List.nodup_cons.mp hnd).1 hc
      · exact h.first_apart a (hA a ha) x hx hxa hcmem
    have hslots' : g.slots img' x = ((0,e)::(firstEntryLen,{ e' with inode := L })::es)::ls := by
      rw [Globals.slots,hb,List.map_cons,List.cons.injEq] at hslots
      rw [Globals.slots,hdata,hb,List.map_cons,hnew,hsame,hslots.2]
    have hLuse : inUse (firstEntryLen,{ e' with inode := L }) = true := by
      have hL0 : L ≠ 0 := by omega
      simp [inUse,hL0]
    rw [Globals.children,Globals.used,hslots',Globals.children,Globals.used,hslots]
    simp only [List.map_cons,List.filter_cons,hinUse.1,hinUse.2,hLuse,if_true,dropDots,
      List.drop_succ_cons,List.drop_zero]
  · have hblk : ∀ b ∈ g.dirData img x, g.blockAt img' b = g.blockAt img b := by
      intro b hb
      refine ht.frame b fun L hL => ⟨hother L hL b hb,fun a ha => ?_⟩
      rintro rfl
      by_cases hxa : x = a
      · subst hxa
        rcases hx with hxt | hxd
        · exact (hA x ha).2 (tree_inUseBy hxt)
        · exact hxA ⟨L,hL,ha,hxd⟩
      · exact h.first_apart a (hA a ha) x hx hxa hb
    rw [Globals.children,Globals.used,Globals.slots,hdata,Globals.children,Globals.used,Globals.slots]
    refine congrArg (fun ls : List (List (ℕ × DirEntry)) =>
      (dropDots (ls.map fun l => l.filter inUse)).map Prod.snd) (List.map_congr_left fun b hb => ?_)
    rw [hblk b hb]

theorem LooseForest.root_unnamed (h : LooseForest g img) {i x : ℕ} (hi : g.ForestRoot img i)
    (hx : g.AnyDir img x) : i ∉ (g.children img x).map DirEntry.inode := by
  intro hmem
  rcases hx with hx | hx
  · exact hi.1.2 (Or.inr ⟨x,hx,hmem⟩)
  · by_cases hxi : x = i
    · subst hxi
      exact h.loose_acyclic x hx x .refl (.single (List.mem_filter.mpr ⟨hmem,hx.2⟩))
    · exact hi.2 x hx hxi hmem

end Taken

section Lists

variable (g : Globals) (img : Buf) (ds : List ℕ)

/-- With `ds` the directories of the tree, whether inode `i` is the root or named by the tree. -/
def Globals.treeNames (i : ℕ) : Bool :=
  i == rootInodeNum || ds.any fun d => ((g.children img d).map DirEntry.inode).contains i

def Globals.looseIn : List ℕ := (List.range' 1 g.superBlock.sInodesCount).filter fun i =>
  (g.inodeAt img i).iLinksCount != 0 && g.inodeBit img i && !g.treeNames img ds i

def Globals.looseDirsIn : List ℕ := (g.looseIn img ds).filter fun i => inodeIsDir (g.inodeAt img i)

def Globals.anyDirsIn : List ℕ := ds ++ g.looseDirsIn img ds

/-- What the second entry names, when the first names `x` and takes 12 bytes. -/
def secondOf (x : ℕ) : List (List (ℕ × DirEntry)) → Option ℕ
  | (p::q::_)::_ => if p.1 = 0 ∧ q.1 = firstEntryLen ∧ p.2.inode = x then some q.2.inode else none
  | _ => none

def Globals.parentAt (x : ℕ) : Option ℕ := secondOf x (g.slots img x)

/-- `LooseForest` and `AllSeen` over lists; `n` is the depth to which the trees are searched for
cycles. -/
structure LooseForestOn (n : ℕ) : Prop where
  nodup : (g.anyDirsIn img ds).Nodup
  dirs : ∀ x ∈ g.anyDirsIn img ds, formedDirCheck g img x = true ∧ g.UsedFirst img x ∧
    ∀ e ∈ g.children img x, dirIsDir e = inodeIsDir (g.inodeAt img e.inode)
  root_dots : g.parentAt img rootInodeNum = some rootInodeNum
  referenced : ∀ x ∈ ds, ∀ i ∈ g.usedNames img x, g.treeNames img ds i = true
  lostFound : (g.lostFound img).all (fun L => ds.contains L && L != rootInodeNum) = true
  kind : ∀ x ∈ g.looseIn img ds,
    inodeIsDir (g.inodeAt img x) = true ∨ inodeIsReg (g.inodeAt img x) = true
  loose : ∀ x ∈ g.looseDirsIn img ds, (∀ e ∈ g.children img x, e.inode ∈ g.looseIn img ds) ∧
    (unfoldFrom (g.dirsBelow img) n [x]).isSome = true ∧
    ((g.children img x).map DirEntry.inode).Nodup ∧
    (g.parentAt img x).any (fun p => decide ((∀ y ∈ g.looseDirsIn img ds,
        x ∈ (g.children img y).map DirEntry.inode → p = y) ∧
      ((∀ y ∈ g.looseDirsIn img ds, y ≠ x → x ∉ (g.children img y).map DirEntry.inode) →
        p ∉ g.looseIn img ds))) = true
  one_parent : ∀ x ∈ g.looseDirsIn img ds, ∀ y ∈ g.looseDirsIn img ds,
    ∀ z ∈ (g.children img x).map DirEntry.inode, z ∈ (g.children img y).map DirEntry.inode → x = y
  blocks : ∀ x ∈ g.anyDirsIn img ds, (g.dirData img x).Nodup ∧ ∀ y ∈ g.anyDirsIn img ds, x ≠ y →
    ∀ b ∈ g.dirData img x, b ∉ g.dirData img y
  first : ∀ x ∈ g.looseIn img ds, g.firstBlock img x < g.superBlock.sBlocksCount ∧
    ∀ y ∈ g.anyDirsIn img ds, y ≠ x → g.firstBlock img x ∉ g.dirData img y
  table_apart : ∀ i ∈ List.range' 1 g.superBlock.sInodesCount,
    (∀ x ∈ g.looseIn img ds, g.firstBlock img x ≠ g.inodeBlock i) ∧
    ∀ x ∈ g.anyDirsIn img ds, g.inodeBlock i ∉ g.dirData img x
  few : ((g.anyDirsIn img ds).map fun x => (g.usedNames img x).length).sum < 256

end Lists

section OfLists

variable {g : Globals} {img : Buf} {ds : List ℕ}

theorem secondOf_eq {x p : ℕ} {ls : List (List (ℕ × DirEntry))} (h : secondOf x ls = some p) :
    ∃ e e' es ls', ls = ((0,e)::(firstEntryLen,e')::es)::ls' ∧ e.inode = x ∧ e'.inode = p := by
  match ls with
  | [] => cases h
  | []::_ => cases h
  | [_]::_ => cases h
  | ((o,e)::(o',e')::es)::ls =>
    rw [secondOf] at h
    split at h
    · rename_i hc
      obtain ⟨rfl,rfl,he⟩ := hc
      exact ⟨e,e',es,ls,rfl,he,Option.some.inj h⟩
    · cases h

theorem parentAt_eq {x p : ℕ} (h : g.parentAt img x = some p) : g.DotsAt img p x := secondOf_eq h

variable (hu : Unfolds (g.dirsBelow img) [rootInodeNum] ds)
include hu

theorem treeNames_iff (i : ℕ) : g.treeNames img ds i = true ↔ g.InUseBy img i := by
  simp only [Globals.treeNames,Bool.or_eq_true,beq_iff_eq,List.any_eq_true,List.contains_iff_mem,
    hu.mem_iff,Globals.InUseBy,Globals.InTree]

theorem mem_looseIn (i : ℕ) : i ∈ g.looseIn img ds ↔ g.Unreferenced img i := by
  have hnames := treeNames_iff hu i
  simp only [Globals.looseIn,List.mem_filter,List.mem_range'_1,Bool.and_eq_true,bne_iff_ne,
    Bool.not_eq_true',← Bool.not_eq_true,hnames,Globals.Unreferenced,Globals.Allocated]
  constructor
  · rintro ⟨h₁,⟨h₂,h₃⟩,h₄⟩
    exact ⟨⟨h₁.1,by omega,h₂,h₃⟩,h₄⟩
  · rintro ⟨⟨h₁,h₂,h₃,h₄⟩,h₅⟩
    exact ⟨⟨h₁,by omega⟩,⟨h₃,h₄⟩,h₅⟩

theorem mem_looseDirsIn (x : ℕ) : x ∈ g.looseDirsIn img ds ↔ g.LooseDir img x := by
  rw [Globals.looseDirsIn,List.mem_filter,mem_looseIn hu,Globals.LooseDir]

theorem mem_anyDirsIn (x : ℕ) : x ∈ g.anyDirsIn img ds ↔ g.AnyDir img x := by
  rw [Globals.anyDirsIn,List.mem_append,mem_looseDirsIn hu,hu.mem_iff,Globals.AnyDir,Globals.InTree]

theorem forestRoot_iff (x : ℕ) : g.ForestRoot img x ↔ x ∈ g.looseIn img ds ∧
    ∀ y ∈ g.looseDirsIn img ds, y ≠ x → x ∉ (g.children img y).map DirEntry.inode := by
  refine and_congr (mem_looseIn hu x).symm (forall_congr' fun y => ?_)
  rw [mem_looseDirsIn hu]

theorem LooseForestOn.forest {n : ℕ} (h : LooseForestOn g img ds n) : LooseForest g img where
  dirs x hx := formedDir_of_check (h.dirs x ((mem_anyDirsIn hu x).mpr hx)).1
  acyclic := hu.acyclic
  once := hu.nodup_iff.mp (List.Nodup.of_append_left h.nodup)
  root_dots := parentAt_eq h.root_dots
  referenced x hx i hi := (treeNames_iff hu i).mp (h.referenced x (hu.mem_iff.mpr hx) i hi)
  lostFound L hL := by
    have hcheck := h.lostFound
    simp only [hL,Option.all_some,Bool.and_eq_true,List.contains_iff_mem,bne_iff_ne] at hcheck
    exact ⟨hu.mem_iff.mp hcheck.1,hcheck.2⟩
  kind x hx := h.kind x ((mem_looseIn hu x).mpr hx)
  kids x hx e he := (mem_looseIn hu _).mp ((h.loose x ((mem_looseDirsIn hu x).mpr hx)).1 e he)
  loose_acyclic x hx := by
    obtain ⟨l,hl⟩ := Option.isSome_iff_exists.mp (h.loose x ((mem_looseDirsIn hu x).mpr hx)).2.1
    exact (unfolds_of_unfoldFrom hl).acyclic
  one_parent x y hx hy := h.one_parent x ((mem_looseDirsIn hu x).mpr hx) y ((mem_looseDirsIn hu y).mpr hy)
  one_name x hx := (h.loose x ((mem_looseDirsIn hu x).mpr hx)).2.2.1
  dots x hx := by
    obtain ⟨p,hp,hcheck⟩ := Option.any_eq_true _ _ |>.mp (h.loose x ((mem_looseDirsIn hu x).mpr hx)).2.2.2
    obtain ⟨hparent,hroot⟩ := of_decide_eq_true hcheck
    refine ⟨p,parentAt_eq hp,fun y hy => hparent y ((mem_looseDirsIn hu y).mpr hy),fun hr ho => ?_⟩
    exact hroot ((forestRoot_iff hu x).mp hr).2 ((mem_looseIn hu p).mpr ho)
  blocks_nodup x hx := (h.blocks x ((mem_anyDirsIn hu x).mpr hx)).1
  blocks_disjoint x y hx hy :=
    (h.blocks x ((mem_anyDirsIn hu x).mpr hx)).2 y ((mem_anyDirsIn hu y).mpr hy)
  first_lt x hx := (h.first x ((mem_looseIn hu x).mpr hx)).1
  first_apart x hx y hy := (h.first x ((mem_looseIn hu x).mpr hx)).2 y ((mem_anyDirsIn hu y).mpr hy)
  table_apart b hb i h1 hi := by
    have h₁ := h.table_apart i (by rw [List.mem_range'_1]; omega)
    rcases hb with ⟨x,hx,rfl⟩ | ⟨x,hx,hb⟩
    · exact h₁.1 x ((mem_looseIn hu x).mpr hx)
    · rintro rfl
      exact h₁.2 x ((mem_anyDirsIn hu x).mpr hx) hb

theorem LooseForestOn.allSeen {n : ℕ} (h : LooseForestOn g img ds n) : AllSeen g img :=
  ⟨fun x hx => (h.dirs x ((mem_anyDirsIn hu x).mpr hx)).2.1,
    fun x hx => (h.dirs x ((mem_anyDirsIn hu x).mpr hx)).2.2⟩

theorem LooseForestOn.namings_lt {n : ℕ} (h : LooseForestOn g img ds n) (i : ℕ) :
    g.namings img i < 256 := by
  classical
  refine lt_of_le_of_lt ?_ h.few
  rw [← List.sum_toFinset _ h.nodup]
  calc g.namings img i ≤ ∑ x ∈ (g.anyDirsIn img ds).toFinset, (g.usedNames img x).count i := by
        refine Finset.sum_le_sum_of_subset fun x hx => ?_
        exact List.mem_toFinset.mpr ((mem_anyDirsIn hu x).mpr (Finset.mem_filter.mp hx).2)
    _ ≤ ∑ x ∈ (g.anyDirsIn img ds).toFinset, (g.usedNames img x).length :=
        Finset.sum_le_sum fun x _ => List.count_le_length

end OfLists

/-- From `img` to `img'`, only `lost+found` names more than it did: of its entries in front of the first
unused one in a block, those of the inodes `P` are new. -/
structure OnlyAdds (g : Globals) (img img' : Buf) (P : List ℕ) : Prop where
  others : ∀ x, g.AnyDir img x → g.lostFound img ≠ some x → g.children img' x = g.children img x
  lostFound : ∀ L, g.lostFound img = some L → Gains (g.links img L)
    (P.map fun a => (a,inodeIsDir (g.inodeAt img a))) (g.links img' L)

section Seen

variable {g : Globals} {img : Buf} (hs : AllSeen g img) (h : LooseForest g img)
include hs h

theorem AllSeen.treeOf_unfolds : Unfolds (g.dirsBelow img) [rootInodeNum] (g.treeOf img rootInodeNum) := by
  obtain ⟨ds,hds,_⟩ := (hs.orphanForest h).tree.unfolds
  exact (hs.seenTree h).unfolds_iff.mp (MyFsck.treeOf_unfolds ⟨ds,hds⟩)

theorem AllSeen.treeOf_nodup : (g.treeOf img rootInodeNum).Nodup := (hs.treeOf_unfolds h).nodup_iff.mpr h.once

theorem AllSeen.linked_counted {i : ℕ} (hi : g.Linked img i) :
    i ∈ g.counted img (g.treeOf img rootInodeNum) := by
  have hnames : ∀ x, g.InTree img x → i ∈ g.usedNames img x →
      i ∈ g.counted img (g.treeOf img rootInodeNum) := fun x hx hmem =>
    List.mem_flatMap.mpr ⟨x,(hs.treeOf_unfolds h).mem_iff.mpr hx,by rwa [hs.named_eq h (Or.inl hx)]⟩
  rcases (hs.linked_iff h).mp hi with rfl | ⟨x,hx,hmem⟩
  · obtain ⟨e,e',es,ls,hent,he,-⟩ := h.dirEntries_dots (Or.inl .refl) h.root_dots
    refine hnames _ .refl ?_
    rw [← hs.named_eq h (Or.inl .refl),Globals.named,hent]
    simp [he]
  · obtain ⟨e,he,rfl⟩ := List.mem_map.mp hmem
    exact hnames x hx (children_named he)

open Classical in
theorem AllSeen.sum_named (i : ℕ) : ∑ x ∈ (Finset.Icc 1 g.superBlock.sInodesCount).filter (g.Known img),
    (g.named img x).count i = g.namings img i := by
  unfold Globals.namings
  refine Finset.sum_congr (Finset.filter_congr fun x _ => hs.known_iff h) fun x hx => ?_
  rw [hs.named_eq h (Finset.mem_filter.mp hx).2]

end Seen

theorem AllSeen.met_iff {g : Globals} {img : Buf} (hs : AllSeen g img) (h : LooseForest g img)
    (hlt : ∀ i, g.namings img i < 256) :
    (∀ i, g.Allocated img i → ¬ g.Topmost img i → (g.metBefore img i).count i % 256 ≠ 0) ↔
      ∀ r i, g.ForestRoot img r → g.Below img r i → r < i := by
  have hforest := hs.orphanForest h
  have hmet : ∀ i k, (g.metBefore img k).count i < 256 := fun i k => by
    refine lt_of_le_of_lt (hforest.metBefore_count_le (hs.treeOf_nodup h) k i) ?_
    rw [hs.sum_named h]
    exact hlt i
  rw [hforest.met_iff (hs.orphanDots h) (fun i hi => hs.linked_counted h hi) hmet]
  exact forall₂_congr fun r i => by rw [hs.topmost_iff h,hs.above_iff h]

/-- Where every directory is seen as it is and no counter can wrap around, `pass2` takes in the roots
of the forest, and nothing else, if and only if each root has a smaller number than all inodes below
it. -/
theorem AllSeen.reported_iff {g : Globals} {img : Buf} (hs : AllSeen g img) (hl : GroupLayout g)
    (hf : g.Fits img) (h : LooseForest g img) (hlt : ∀ i, g.namings img i < 256) :
    ∃ n, ∀ fuel, n ≤ fuel →
      ((∀ i ∈ reported (endState (pass2 g fuel) ⟨img,[]⟩).out, g.ForestRoot img i) ↔
        ∀ r i, g.ForestRoot img r → g.Below img r i → r < i) ∧
      ((∀ r i, g.ForestRoot img r → g.Below img r i → r < i) →
        ∃ d', (pass2 g fuel).run ⟨img,[]⟩ = .ok () d' ∧ ∃ A : List ℕ, A.Nodup ∧
          (∀ a, a ∈ A ↔ g.ForestRoot img a) ∧ TakenIn g img A d'.image) := by
  have hforest := hs.orphanForest h
  have hdots := hs.orphanDots h
  obtain ⟨n,hn⟩ := reported_topmost_iff hl hf hforest
  refine ⟨n,fun fuel hfuel => ?_⟩
  obtain ⟨hiff,hrun⟩ := hn fuel hfuel
  rw [hs.met_iff h hlt] at hiff hrun
  refine ⟨?_,fun hsmall => ?_⟩
  · rw [← hiff]
    exact forall₂_congr fun i _ => (hs.topmost_iff h).symm
  · obtain ⟨d',hd',A,hnd,hmem,htop,ht,-⟩ := hrun hsmall
    refine ⟨d',hd',A,hnd,fun a => ⟨fun ha => (hs.topmost_iff h).mp (htop a ha),fun ha => ?_⟩,ht⟩
    have ha' := (hs.topmost_iff h).mpr ha
    refine (hmem a).mpr ⟨ha.1.1,?_⟩
    rw [List.count_eq_zero.mpr (hforest.topmost_not_met hdots ha')]

/-- An unreferenced directory 13 that names the unreferenced directory 12. -/
def familyImage : Buf := exampleImage 16 [
  inodePiece 2 (inodeBytes 0x41ED 1024 3 [7]),
  inodePiece 11 (inodeBytes 0x41ED 1024 2 [8]),
  inodePiece 12 (inodeBytes 0x41ED 1024 2 [10]),
  inodePiece 13 (inodeBytes 0x41ED 1024 3 [9]),
  blockPiece 4 0 [255,31],
  blockPiece 7 0 (entryBytes 2 12 2 [46]),
  blockPiece 7 12 (entryBytes 2 12 2 [46,46]),
  blockPiece 7 24 (entryBytes 11 1000 2 [108,111,115,116,43,102,111,117,110,100]),
  blockPiece 8 0 (entryBytes 11 12 2 [46]),
  blockPiece 8 12 (entryBytes 2 1012 2 [46,46]),
  blockPiece 9 0 (entryBytes 13 12 2 [46]),
  blockPiece 9 12 (entryBytes 2 12 2 [46,46]),
  blockPiece 9 24 (entryBytes 12 1000 2 [97]),
  blockPiece 10 0 (entryBytes 12 12 2 [46]),
  blockPiece 10 12 (entryBytes 13 1012 2 [46,46])]

theorem family_facts : GroupLayout (exampleGlobals 16) ∧ (exampleGlobals 16).Fits familyImage ∧
    unfoldFrom ((exampleGlobals 16).dirsBelow familyImage) 2 [rootInodeNum] = some [2,11] ∧
    (exampleGlobals 16).looseDirsIn familyImage [2,11] = [12,13] ∧
    (exampleGlobals 16).looseIn familyImage [2,11] = [12,13] ∧
    ((exampleGlobals 16).children familyImage 13).map DirEntry.inode = [12] ∧
    (exampleGlobals 16).children familyImage 11 = [] ∧
    (exampleGlobals 16).lostFound familyImage = some 11 ∧
    (exampleGlobals 16).dirData familyImage 11 = [8] ∧
    liveCheck ((exampleGlobals 16).blockAt familyImage 8) ((exampleGlobals 16).blockAt familyImage 8).size 0 =
      true ∧
    ([12,13].map entrySize).sum ≤ lastSlack ((exampleGlobals 16).blockAt familyImage 8)-entrySizeMax := by
  decide +kernel

theorem family_run : endsIn (pass2 (exampleGlobals 16) 2) ⟨familyImage,[]⟩ (fun _ d' =>
    decide (12 ∈ reported d'.out ∧ ((exampleGlobals 16).children d'.image 13).map DirEntry.inode = [12] ∧
      ((exampleGlobals 16).children d'.image 11).map DirEntry.inode = [12] ∧
      unfoldFrom ((exampleGlobals 16).dirsBelow d'.image) 3 [rootInodeNum] = some [2,11,12] ∧
      (exampleGlobals 16).treeNames d'.image [2,11,12] 13 = false)) = true := by decide +kernel

theorem family_unfolds : Unfolds ((exampleGlobals 16).dirsBelow familyImage) [rootInodeNum] [2,11] :=
  unfolds_of_unfoldFrom family_facts.2.2.1

theorem family_forest : LooseForestOn (exampleGlobals 16) familyImage [2,11] 2 := by
  constructor <;> decide +kernel

theorem LiveChain.slotsFrom_inUse {b : Buf} {off : ℕ} {es : List (ℕ × DirEntry)} (h : LiveChain b off es)
    (turns : ℕ) : ∀ p ∈ slotsFrom b turns off, inUse p = true := by
  induction h generalizing turns with
  | done =>
    cases turns with
    | zero => exact fun p hp => absurd hp List.not_mem_nil
    | succ n =>
      rw [slotsFrom,if_neg (Nat.lt_irrefl _)]
      exact fun p hp => absurd hp List.not_mem_nil
  | @live off es hn _ _ ih =>
    cases turns with
    | zero => exact fun p hp => absurd hp List.not_mem_nil
    | succ n =>
      rw [slotsFrom]
      split
      · intro p hp
        rcases List.mem_cons.mp hp with rfl | hp
        · simpa [inUse,entryAt] using hn
        · exact ih n p hp
      · exact fun p hp => absurd hp List.not_mem_nil

theorem LiveBlock.behindUnused_nil {b : Buf} (h : LiveBlock b) : behindUnused (slotsOf b) = [] := by
  rw [behindUnused,slotsOf,List.dropWhile_eq_nil_iff.mpr (LiveChain.slotsFrom_inUse h b.size)]
  rfl

section Links

variable {g : Globals} {img img' : Buf} {A : List ℕ} {L : ℕ}

/-- When entries for all of `A` were put into `lost+found`, it names them, and what it named before. -/
theorem TakenIn.lostFound_names (h : LooseForest g img) (hs : AllSeen g img)
    (ht : TakenIn g img A img') (hL : g.lostFound img = some L)
    (hgains : Gains (g.links img L) (A.map fun a => (a,inodeIsDir (g.inodeAt img a))) (g.links img' L))
    (hkept : ∀ b ∈ g.dirBlocks img L,
      g.blockAt img' b = g.blockAt img b ∨ LiveBlock (g.blockAt img' b)) (k : ℕ) :
    k ∈ (g.children img' L).map DirEntry.inode ↔ k ∈ (g.children img L).map DirEntry.inode ∨ k ∈ A := by
  have hLd : g.AnyDir img L := Or.inl (h.lostFound L hL).1
  have hd := h.dirs L hLd
  have hblocks : g.dirBlocks img' L = g.dirData img' L := by
    rw [ht.dirData_eq h hLd,Globals.dirBlocks,ht.inodes L hd.num_pos hd.num_le,← Globals.dirBlocks]
    exact hd.dirBlocks_eq
  have hfront : g.UsedFirst img' L := by
    intro l hl
    obtain ⟨b,hb,rfl⟩ := List.mem_map.mp hl
    rw [ht.dirData_eq h hLd] at hb
    rcases hkept b (hd.dirBlocks_eq ▸ hb) with he | hlive
    · rw [he]
      exact hs.used_first L hLd _ (List.mem_map_of_mem hb)
    · exact hlive.behindUnused_nil
  have hnames := (lostFound_gains ((hs.orphanForest h).lostFound L hL).dots hgains).2 k
  rwa [hs.nonDot_eq h hLd,nonDot_eq_children hblocks hfront] at hnames

variable (hg : Geometry g) (h : LooseForest g img) (ht : TakenIn g img A img')
  (hA : ∀ a ∈ A, g.Unreferenced img a) (hL : g.lostFound img = some L)
  (hnames : ∀ k, k ∈ (g.children img' L).map DirEntry.inode ↔
    k ∈ (g.children img L).map DirEntry.inode ∨ k ∈ A)
include hg h ht hA hL hnames

/-- Then every other directory names what it named before. -/
theorem TakenIn.names_iff {x k : ℕ} (hx : g.AnyDir img x) : k ∈ (g.children img' x).map DirEntry.inode ↔
    k ∈ (g.children img x).map DirEntry.inode ∨ (x = L ∧ k ∈ A) := by
  by_cases hxL : g.lostFound img = some x
  · obtain rfl : L = x := Option.some.inj (hL.symm.trans hxL)
    rw [hnames]
    simp
  · have hne : x ≠ L := by
      rintro rfl
      exact hxL hL
    rw [ht.children_eq hg h hA hx hxL]
    simp [hne]

theorem TakenIn.dirsBelow_iff {x k : ℕ} (hx : g.AnyDir img x) : k ∈ g.dirsBelow img' x ↔
    k ∈ g.dirsBelow img x ∨ (x = L ∧ k ∈ A ∧ inodeIsDir (g.inodeAt img k) = true) := by
  rw [Globals.dirsBelow,List.mem_filter,ht.names_iff hg h hA hL hnames hx,Globals.dirsBelow,
    List.mem_filter,or_and_right,and_assoc]
  refine or_congr (and_congr_right fun hk => ?_) (and_congr_right fun _ => and_congr_right fun hk => ?_)
  · obtain ⟨e,he,rfl⟩ := List.mem_map.mp hk
    have hname := children_named he
    rw [ht.inodes _ (usedNames_pos hname) ((h.dirs x hx).names_le _ hname)]
  · rw [ht.inodes k (hA k hk).1.1 (hA k hk).1.2.1]

theorem TakenIn.inTree_mono {x : ℕ} (hx : g.InTree img x) : g.InTree img' x := by
  induction hx with
  | refl => exact .refl
  | tail hx hk ih => exact ih.tail ((ht.dirsBelow_iff hg h hA hL hnames (Or.inl hx)).mpr (Or.inl hk))

theorem TakenIn.inTree_inv {x : ℕ} (hx : g.InTree img' x) : g.InTree img x ∨
    ∃ r ∈ A, g.LooseDir img r ∧ Reach (g.dirsBelow img) r x := by
  induction hx with
  | refl => exact Or.inl .refl
  | @tail d k _ hk ih =>
    rcases ih with hd | ⟨r,hr,hrd,hd⟩
    · rcases (ht.dirsBelow_iff hg h hA hL hnames (Or.inl hd)).mp hk with hk | ⟨rfl,hkA,hkd⟩
      · exact Or.inl (hd.tail hk)
      · exact Or.inr ⟨k,hkA,⟨hA k hkA,hkd⟩,.refl⟩
    · have hdd := h.loose_reach hrd hd
      rcases (ht.dirsBelow_iff hg h hA hL hnames (Or.inr hdd)).mp hk with hk | ⟨rfl,-⟩
      · exact Or.inr ⟨r,hr,hrd,hd.tail hk⟩
      · exact absurd (tree_inUseBy (h.lostFound d hL).1) hdd.1.2

/-- Of the unreferenced inodes, those taken in are in the tree, and those below them. -/
theorem TakenIn.inUseBy_iff {x : ℕ} (hx : g.Unreferenced img x) :
    g.InUseBy img' x ↔ ∃ r ∈ A, r = x ∨ g.Below img r x := by
  have hLtree := (h.lostFound L hL).1
  have hLtree' := ht.inTree_mono hg h hA hL hnames hLtree
  constructor
  · rintro (rfl | ⟨d,hd,hmem⟩)
    · exact absurd (Or.inl rfl) hx.2
    · rcases ht.inTree_inv hg h hA hL hnames hd with hd | ⟨r,hr,hrd,hd⟩
      · rcases (ht.names_iff hg h hA hL hnames (Or.inl hd)).mp hmem with hmem | ⟨-,hxA⟩
        · exact absurd (Or.inr ⟨d,hd,hmem⟩) hx.2
        · exact ⟨x,hxA,Or.inl rfl⟩
      · have hdd := h.loose_reach hrd hd
        rcases (ht.names_iff hg h hA hL hnames (Or.inr hdd)).mp hmem with hmem | ⟨-,hxA⟩
        · exact ⟨r,hr,Or.inr ⟨hrd,d,hd,hmem⟩⟩
        · exact ⟨x,hxA,Or.inl rfl⟩
  · rintro ⟨r,hr,hx⟩
    have hrL := (hnames r).mpr (Or.inr hr)
    rcases hx with rfl | ⟨hrd,z,hz,hx⟩
    · exact Or.inr ⟨L,hLtree',hrL⟩
    · have hrtree : g.InTree img' r := hLtree'.tail
        ((ht.dirsBelow_iff hg h hA hL hnames (Or.inl hLtree)).mpr (Or.inr ⟨rfl,hr,hrd.2⟩))
      have hztree : g.InTree img' z := by
        clear hx
        induction hz with
        | refl => exact hrtree
        | tail hz hk ih =>
          exact ih.tail ((ht.dirsBelow_iff hg h hA hL hnames (Or.inr (h.loose_reach hrd hz))).mpr
            (Or.inl hk))
      exact Or.inr ⟨z,hztree,
        (ht.names_iff hg h hA hL hnames (Or.inr (h.loose_reach hrd hz))).mpr (Or.inl hx)⟩

end Links

section Chosen

variable {g : Globals} {img : Buf} (hs : AllSeen g img) (h : LooseForest g img)
include hs h

/-- Of the directories of the tree and those taken in, each counts once. -/
theorem AllSeen.countedDirs_lt (hlt : ∀ i, g.namings img i < 256) {k : ℕ}
    (hA : ∀ a ∈ (g.scanTo img k).taken, g.Orphan img a) (i : ℕ) :
    ((g.countedDirs img k).flatMap (g.named img)).count i < 256 := by
  have hu := hs.treeOf_unfolds h
  have hknown : ∀ x ∈ (g.scanTo img k).taken.filter (fun a => inodeIsDir (g.inodeAt img a)),
      g.OrphanDir img x := fun x hx => by
    obtain ⟨hx,hd⟩ := List.mem_filter.mp hx
    exact ⟨hA x hx,hd⟩
  have hnd : (g.countedDirs img k).Nodup := by
    refine (hs.treeOf_nodup h).append ((scanTo_nodup k).filter _) fun x hx hxA => ?_
    exact not_orphan_of_reach ((hs.reach_iff h).mpr (hu.mem_iff.mp hx)) (hknown x hxA).1
  refine lt_of_le_of_lt ((hs.orphanForest h).count_named_le hnd (fun x hx => ?_) i) ?_
  · rcases List.mem_append.mp hx with hx | hx
    · exact Or.inl ((hs.reach_iff h).mpr (hu.mem_iff.mp hx))
    · exact Or.inr (hknown x hx)
  · rw [hs.sum_named h]
    exact hlt i

/-- With `lost+found` in front of all unreferenced inodes, or each root in front of those below it, the
scan takes in only unreferenced inodes. -/
theorem AllSeen.taken_orphan (hlt : ∀ i, g.namings img i < 256) {L : ℕ} (hL : g.lostFound img = some L)
    (hfirst : (∀ i, g.Unreferenced img i → L < i) ∨
      ∀ r i, g.ForestRoot img r → g.Below img r i → r < i) (k : ℕ) :
    ∀ a ∈ (g.scanTo img k).taken, g.Orphan img a := by
  rcases hfirst with hfirst | hsmall
  swap
  · have hmet := (hs.met_iff h hlt).mpr hsmall
    exact fun a ha => (scanTo_topmost (hs.orphanForest h) (fun i _ => hmet i) a ha).1
  induction k with
  | zero => exact fun a ha => absurd ha List.not_mem_nil
  | succ k ih =>
    intro a ha
    obtain ⟨hak,hal,h0⟩ := mem_scanTo.mp ha
    by_cases hk : a = k
    · subst hk
      by_contra hno
      have hlinked : g.Linked img a := by_contra fun hn => hno ⟨hal,hn⟩
      rw [(hs.orphanForest h).scanTo_count_known (hs.orphanDots h) ih hno fun y hy hLa => ?_,
        Nat.mod_eq_of_lt (hs.countedDirs_lt h hlt ih a),List.count_eq_zero] at h0
      · obtain ⟨x,hx,hmem⟩ := List.mem_flatMap.mp (hs.linked_counted h hlinked)
        exact h0 (List.mem_flatMap.mpr ⟨x,List.mem_append_left _ hx,hmem⟩)
      · obtain rfl : L = a := Option.some.inj (hL.symm.trans hLa)
        have hya := (mem_scanTo.mp hy).1
        have hLy := hfirst y ((hs.orphan_iff h).mp (ih y hy))
        omega
    · exact ih a (mem_scanTo.mpr ⟨by omega,hal,h0⟩)

end Chosen

theorem chosen_congr {kids kids' : ℕ → List ℕ} {P : ℕ → Prop} (hk : ∀ x, P x → kids x = kids' x)
    (hP : ∀ x, P x → ∀ c ∈ kids x, P c) {x : ℕ} (hx : P x) : chosen kids x = chosen kids' x := by
  induction x using Nat.strong_induction_on with
  | _ x ih =>
    rw [chosen_eq,chosen_eq,← hk x hx,List.countP_congr fun c hc => ?_]
    by_cases hcx : c < x
    · rw [ih c hcx (hP x hx c hc)]
    · simp [hcx]

/-- The directories that an unreferenced inode names. -/
def Globals.looseKids (g : Globals) (img : Buf) (x : ℕ) : List ℕ :=
  if inodeIsDir (g.inodeAt img x) = true then g.dirsBelow img x else []

theorem AllSeen.chosen_looseKids {g : Globals} {img : Buf} (hs : AllSeen g img) (h : LooseForest g img)
    {x : ℕ} (hx : g.Unreferenced img x) : chosen (g.childDirs img) x = chosen (g.looseKids img) x := by
  have hsame : ∀ x, g.Unreferenced img x → g.childDirs img x = g.looseKids img x := by
    intro x hx
    rw [Globals.childDirs,Globals.looseKids]
    split
    · exact hs.subdirs_eq h (Or.inr ⟨hx,‹_›⟩)
    · rfl
  refine chosen_congr hsame (fun x hx c hc => ?_) hx
  obtain ⟨hd,hc⟩ := mem_childDirs.mp hc
  rw [hs.subdirs_eq h (Or.inr ⟨hx,hd⟩)] at hc
  exact (h.loose_reach ⟨hx,hd⟩ (.single hc)).1

open Classical in
/-- The bytes that entries for all unreferenced inodes take. -/
noncomputable def Globals.looseSpace (g : Globals) (img : Buf) : ℕ :=
  ∑ i ∈ (Finset.Icc 1 g.superBlock.sInodesCount).filter (g.Unreferenced img), entrySize i

theorem looseSpace_eq {g : Globals} {img : Buf} {ds : List ℕ}
    (hu : Unfolds (g.dirsBelow img) [rootInodeNum] ds) :
    g.looseSpace img = ((g.looseIn img ds).map entrySize).sum := by
  classical
  have hnd : (g.looseIn img ds).Nodup := List.Nodup.filter _ (List.nodup_range' 1)
  rw [← List.sum_toFinset entrySize hnd,Globals.looseSpace]
  refine Finset.sum_congr ?_ fun _ _ => rfl
  ext i
  rw [Finset.mem_filter,List.mem_toFinset,mem_looseIn hu,Finset.mem_Icc]
  exact ⟨fun h => h.2,fun h => ⟨⟨h.1.1,h.1.2.1⟩,h⟩⟩

theorem sum_le_looseSpace {g : Globals} {img : Buf} {A : List ℕ} (hnd : A.Nodup)
    (hA : ∀ a ∈ A, g.Unreferenced img a) : (A.map entrySize).sum ≤ g.looseSpace img := by
  classical
  rw [← List.sum_toFinset entrySize hnd]
  refine Finset.sum_le_sum_of_subset fun a ha => ?_
  have hloose := hA a (List.mem_toFinset.mp ha)
  exact Finset.mem_filter.mpr ⟨Finset.mem_Icc.mpr ⟨hloose.1.1,hloose.1.2.1⟩,hloose⟩

theorem family_room : Room (exampleGlobals 16) familyImage ((exampleGlobals 16).dirData familyImage 11)
    ((exampleGlobals 16).looseSpace familyImage) := by
  obtain ⟨-,-,-,-,hloose,-,-,-,hdata,hlive,hroom⟩ := family_facts
  rw [looseSpace_eq family_unfolds,hdata,hloose]
  refine ⟨[8],[],rfl,fun c hc => ?_,?_⟩
  · rw [List.mem_singleton.mp hc]
    exact liveBlock_of_check hlive
  · rw [List.map_singleton,List.sum_singleton]
    exact hroom

theorem family_first (i : ℕ) (hi : (exampleGlobals 16).Unreferenced familyImage i) : 11 < i := by
  obtain ⟨-,-,-,-,hloose,-⟩ := family_facts
  rw [← mem_looseIn family_unfolds,hloose] at hi
  simp only [List.mem_cons,List.not_mem_nil,or_false] at hi
  omega

end MyFsck
