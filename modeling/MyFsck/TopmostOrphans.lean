import MyFsck.Scan
import Mathlib.Algebra.BigOperators.Group.Finset.Basic
import Mathlib.Algebra.BigOperators.Group.Finset.Piecewise

/-! Which inodes `pass2` takes into `lost+found`: only the roots of the orphan forest, if and only if
each of the other allocated inodes is met before the scan comes to it. -/
namespace MyFsck

open ByteBuffer ErrorState Unfolding

section Defs

variable (g : Globals) (img : Buf)

open Classical in
/-- The names in the directories linked from the root, and in the trees of those topmost orphans
before `i` that are not named by what comes in front of them. -/
noncomputable def Globals.metBefore : ℕ → List ℕ
  | 0 => g.counted img (g.treeOf img rootInodeNum)
  | i+1 => Globals.metBefore i ++
      if g.Topmost img i ∧ (Globals.metBefore i).count i % 256 = 0 ∧
        inodeIsDir (g.inodeAt img i) = true then g.counted img (g.treeOf img i) else []

end Defs

section Topmost

variable {g : Globals} {img : Buf}

theorem OrphanForest.counted_after (h : OrphanForest g img) {A : List ℕ}
    (hA : ∀ a ∈ A, g.Topmost img a) {x : ℕ} (hx : g.OrphanDir img x) (hxA : x ∉ A) :
    (g.treeOf img x).flatMap (g.namedAfter img A) = g.counted img (g.treeOf img x) := by
  have hu := treeOf_unfolds (h.unfolds hx)
  refine List.flatMap_congr fun y hy => ?_
  have hyA : y ∉ A := by
    intro hyA
    have hyx := h.topmost_reach (hA y hyA) hx (hu.mem_iff.mp hy)
    exact hxA (hyx ▸ hyA)
  rw [Globals.namedAfter,linksAfter_not_mem hyA,← named_links]

theorem scanTo_met (h : OrphanForest g img) {k : ℕ}
    (hA : ∀ a ∈ (g.scanTo img k).taken, g.Topmost img a) :
    (g.scanTo img k).met = g.metBefore img k := by
  induction k with
  | zero => rfl
  | succ k ih =>
    have ih' := ih fun a ha => hA a ((taken_mono (Nat.le_succ k)).subset ha)
    have hkA : k ∉ (g.scanTo img k).taken := fun hk => absurd (mem_scanTo.mp hk).1 (Nat.lt_irrefl k)
    rw [Globals.metBefore,← ih']
    by_cases hk : g.Allocated img k ∧ (g.scanTo img k).met.count k % 256 = 0
    · have hnext := scanTo_taken hk.1 hk.2
      have htop : g.Topmost img k := hA k (by rw [hnext]; simp)
      rw [hnext]
      dsimp only
      congr 1
      by_cases hdir : inodeIsDir (g.inodeAt img k) = true
      · rw [if_pos hdir,if_pos ⟨htop,hk.2,hdir⟩]
        exact h.counted_after (fun a ha => hA a ((taken_mono (Nat.le_succ k)).subset ha))
          ⟨htop.1,hdir⟩ hkA
      · rw [if_neg hdir,if_neg fun h => hdir h.2.2]
    · rw [scanTo_skipped hk,if_neg fun h => hk ⟨h.1.1.1,h.2.1⟩,List.append_nil]

theorem scanTo_topmost (h : OrphanForest g img) {k : ℕ} (hmet : ∀ i, i < k → g.Allocated img i →
    ¬ g.Topmost img i → (g.metBefore img i).count i % 256 ≠ 0) :
    ∀ a ∈ (g.scanTo img k).taken, g.Topmost img a := by
  induction k with
  | zero =>
    intro a ha
    exact absurd ha List.not_mem_nil
  | succ k ih =>
    have ih' := ih fun i hi => hmet i (by omega)
    intro a ha
    obtain ⟨hlt,hal,h0⟩ := mem_scanTo.mp ha
    by_cases hak : a = k
    · subst hak
      by_contra hnt
      rw [scanTo_met h ih'] at h0
      exact hmet a (by omega) hal hnt h0
    · exact ih' a (mem_scanTo.mpr ⟨by omega,hal,h0⟩)

end Topmost

/-- `pass2` hands only topmost orphans to `add_to_lost_found` if and only if each other allocated
inode is named, and not a multiple of 256 times, by what the scan meets in front of it. -/
theorem reported_topmost_iff {g : Globals} {img : Buf} (hl : GroupLayout g) (hf : g.Fits img)
    (h : OrphanForest g img) : ∃ n, ∀ fuel, n ≤ fuel →
      ((∀ i ∈ reported (endState (pass2 g fuel) ⟨img,[]⟩).out, g.Topmost img i) ↔
        ∀ i, g.Allocated img i → ¬ g.Topmost img i → (g.metBefore img i).count i % 256 ≠ 0) ∧
      ((∀ i, g.Allocated img i → ¬ g.Topmost img i → (g.metBefore img i).count i % 256 ≠ 0) →
        ∃ d', (pass2 g fuel).run ⟨img,[]⟩ = .ok () d' ∧ ∃ A : List ℕ, A.Nodup ∧
          (∀ a, a ∈ A ↔ g.Allocated img a ∧ (g.metBefore img a).count a % 256 = 0) ∧
          (∀ a ∈ A, g.Topmost img a) ∧ TakenIn g img A d'.image ∧ reported d'.out = A) := by
  refine ⟨g.scanFuel img,fun fuel hfuel => ?_⟩
  have hrun : (∀ i, g.Allocated img i → ¬ g.Topmost img i → (g.metBefore img i).count i % 256 ≠ 0) →
      ∃ d', (pass2 g fuel).run ⟨img,[]⟩ = .ok () d' ∧ ∃ A : List ℕ, A.Nodup ∧
        (∀ a, a ∈ A ↔ g.Allocated img a ∧ (g.metBefore img a).count a % 256 = 0) ∧
        (∀ a ∈ A, g.Topmost img a) ∧ TakenIn g img A d'.image ∧ reported d'.out = A := by
    intro hmet
    have htop := scanTo_topmost (k := g.superBlock.sInodesCount+1) h fun i _ => hmet i
    obtain ⟨d',hd',ht,hrep⟩ := pass2_run hl hf h (fun a ha => (htop a ha).1) hfuel
    refine ⟨d',hd',_,scanTo_nodup _,fun a => ?_,htop,ht,hrep⟩
    rw [mem_scanTo]
    constructor
    · rintro ⟨hlt,hal,h0⟩
      exact ⟨hal,scanTo_met h (fun b hb => htop b ((taken_mono hlt.le).subset hb)) ▸ h0⟩
    · rintro ⟨hal,h0⟩
      have hle := hal.2.1
      refine ⟨by omega,hal,?_⟩
      rwa [scanTo_met h fun b hb => htop b ((taken_mono (by omega)).subset hb)]
  refine ⟨⟨fun hrep i => ?_,fun hmet => ?_⟩,hrun⟩
  · induction i using Nat.strong_induction_on with
    | _ i ih =>
      intro hal hnt h0
      have htop := scanTo_topmost h ih
      rw [← scanTo_met h htop] at h0
      exact hnt (hrep i (pass2_reported hl hf h hal h0 (fun a ha => (htop a ha).1) hfuel))
  · obtain ⟨d',hd',A,_,_,htop,_,hrep⟩ := hrun hmet
    rw [endState_ok hd',hrep]
    exact htop

end MyFsck
