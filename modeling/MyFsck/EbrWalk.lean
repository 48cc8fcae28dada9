import MyFsck.PartitionLoop
import MyFsck.Unfolding

/-! The walk of `read_ebr` over the sectors of an extended partition: when it comes to an end. -/
namespace MyFsck

open ByteBuffer ErrorState Unfolding

/-- Where the walk goes from sector `s`, with `t` the end of the range searched and `k` partitions
still to be passed: nowhere, or to one other place. -/
def ebrNext (img : Buf) : ℕ × ℕ × ℕ → List (ℕ × ℕ × ℕ)
  | (_,_,0) => []
  | (s,t,k+1) =>
    if s < t ∧ (s+1)*sectorSizeBytes ≤ img.size then
      let e := entryOf img s firstPartitionOffset
      let next := u32 (e.start+e.length)
      if t < next then []
      else if e.type = dosExtendedPartition then [(e.start,next,k+1)] else [(next,t,k)]
    else []

/-- The first entry of sector `a` is an extended one that starts at sector `b` and ends where the range
searched ends. -/
def Nested (img : Buf) (t a b : ℕ) : Prop :=
  a < t ∧ (a+1)*sectorSizeBytes ≤ img.size ∧
    (entryOf img a firstPartitionOffset).type = dosExtendedPartition ∧
    (entryOf img a firstPartitionOffset).start = b ∧
    u32 (b+(entryOf img a firstPartitionOffset).length) = t

section Walk

variable {img : Buf} {s t k s' t' k' : ℕ}

theorem ebrNext_le (h : (s',t',k') ∈ ebrNext img (s,t,k)) : s' < 2^32 ∧ t' ≤ t ∧ k' ≤ k := by
  cases k with
  | zero => cases h
  | succ k =>
    simp only [ebrNext] at h
    split at h
    · split at h
      · cases h
      · split at h
        · simp only [List.mem_singleton,Prod.mk.injEq] at h
          obtain ⟨rfl,rfl,rfl⟩ := h
          exact ⟨u32_lt _,by omega,le_rfl⟩
        · simp only [List.mem_singleton,Prod.mk.injEq] at h
          obtain ⟨rfl,rfl,rfl⟩ := h
          exact ⟨u32_lt _,le_rfl,by omega⟩
    · cases h

theorem nested_of_ebrNext (h : (s',t,k) ∈ ebrNext img (s,t,k)) : 0 < k ∧ Nested img t s s' := by
  cases k with
  | zero => cases h
  | succ k =>
    simp only [ebrNext] at h
    split at h
    · rename_i hin
      split at h
      · cases h
      · split at h
        · rename_i ht
          simp only [List.mem_singleton,Prod.mk.injEq] at h
          exact ⟨Nat.succ_pos k,hin.1,hin.2,ht,h.1.symm,by rw [h.1]; exact h.2.1.symm⟩
        · simp only [List.mem_singleton,Prod.mk.injEq] at h
          omega
    · cases h

theorem Nested.ebrNext (h : Nested img t s s') : (s',t,k+1) ∈ ebrNext img (s,t,k+1) := by
  obtain ⟨hlt,hin,htype,hstart,hend⟩ := h
  rw [MyFsck.ebrNext,if_pos ⟨hlt,hin⟩]
  dsimp only
  rw [hstart,hend,if_neg (lt_irrefl t),if_pos htype]
  exact List.mem_singleton.mpr rfl

theorem ring_of_walk {x y : ℕ × ℕ × ℕ} (h : Relation.TransGen (fun a b => b ∈ ebrNext img a) x y) :
    y.2.1 ≤ x.2.1 ∧ y.2.2 ≤ x.2.2 ∧
      (y.2 = x.2 → 0 < x.2.2 ∧ Relation.TransGen (Nested img x.2.1) x.1 y.1) := by
  obtain ⟨s,t,k⟩ := x
  induction h with
  | @single y hy =>
    obtain ⟨s',t',k'⟩ := y
    obtain ⟨-,ht,hk⟩ := ebrNext_le hy
    refine ⟨ht,hk,fun heq => ?_⟩
    cases heq
    obtain ⟨hpos,hn⟩ := nested_of_ebrNext hy
    exact ⟨hpos,.single hn⟩
  | @tail y z _ hz ih =>
    obtain ⟨s₁,t₁,k₁⟩ := y
    obtain ⟨s₂,t₂,k₂⟩ := z
    obtain ⟨ht₁,hk₁,hring⟩ := ih
    obtain ⟨-,ht₂,hk₂⟩ := ebrNext_le hz
    dsimp only at *
    refine ⟨by omega,by omega,fun heq => ?_⟩
    cases heq
    obtain rfl : t₁ = t := by omega
    obtain rfl : k₁ = k := by omega
    obtain ⟨hpos,hpath⟩ := hring rfl
    exact ⟨hpos,hpath.tail (nested_of_ebrNext hz).2⟩

theorem walk_of_ring {a b : ℕ} (h : Relation.TransGen (Nested img t) a b) (k : ℕ) :
    Relation.TransGen (fun x y => y ∈ ebrNext img x) (a,t,k+1) (b,t,k+1) :=
  h.lift (fun s => (s,t,k+1)) fun _ _ hn => hn.ebrNext

theorem acyclic_iff {x : ℕ × ℕ × ℕ} : Acyclic (ebrNext img) x ↔
    ∀ s t k, Reach (ebrNext img) x (s,t,k+1) → ¬ Relation.TransGen (Nested img t) s s := by
  constructor
  · intro h s t k hr hring
    exact h _ hr (walk_of_ring hring k)
  · rintro h ⟨s,t,k⟩ hr hcycle
    obtain ⟨hpos,hring⟩ := (ring_of_walk hcycle).2.2 rfl
    obtain ⟨k,rfl⟩ : ∃ m, k = m+1 := ⟨k-1,(Nat.sub_add_cancel hpos).symm⟩
    exact h s t k hr hring

theorem walk_finite (x : ℕ × ℕ × ℕ) : {y | Reach (ebrNext img) x y}.Finite := by
  have hbox : (Set.Iio (max (2^32) (x.1+1)) ×ˢ (Set.Iic x.2.1 ×ˢ Set.Iic x.2.2)).Finite :=
    (Set.finite_Iio _).prod ((Set.finite_Iic _).prod (Set.finite_Iic _))
  refine hbox.subset fun y hy => ?_
  induction hy with
  | refl => exact ⟨by simp,by simp,by simp⟩
  | @tail y z _ hz ih =>
    obtain ⟨s,t,k⟩ := y
    obtain ⟨s',t',k'⟩ := z
    obtain ⟨hs,ht,hk⟩ := ebrNext_le hz
    obtain ⟨-,hty,hky⟩ := ih
    simp only [Set.mem_prod,Set.mem_Iio,Set.mem_Iic] at hty hky ⊢
    exact ⟨lt_max_of_lt_left hs,by omega,by omega⟩

end Walk

section Run

variable {stack : ℕ → Byte} {d : Device} {s t k : ℕ}

theorem readSectors_stops (h : ¬ (s+1)*sectorSizeBytes ≤ d.image.size) :
    (readSectors s 1).run d = .error .exit d := by
  unfold readSectors
  rw [bind_ok (EStateM.run_get d),Buf.window,if_neg (by rw [Nat.mul_one,← Nat.succ_mul]; exact h)]
  rfl

theorem readEbr_turn (fuel : ℕ) (last : PartitionEntry) :
    (ebrNext d.image (s,t,k) = [] ∧
      ((∃ r, (readEbr stack (fuel+1) s t (4+(k:ℤ)) last).run d = .ok r d) ∨
        (readEbr stack (fuel+1) s t (4+(k:ℤ)) last).run d = .error .exit d)) ∨
    ∃ s' t' k' e, ebrNext d.image (s,t,k) = [(s',t',k')] ∧
      (readEbr stack (fuel+1) s t (4+(k:ℤ)) last).run d =
        (readEbr stack fuel s' t' (4+(k':ℤ)) e).run d := by
  cases k with
  | zero => exact Or.inl ⟨rfl,Or.inl ⟨last,by rw [readEbr,if_pos (by simp)]; rfl⟩⟩
  | succ k =>
    have hk : 4+((k+1:ℕ):ℤ)-1 = 4+(k:ℤ) := by omega
    rw [readEbr,if_neg (by omega),ebrNext]
    by_cases hs : s < t
    · rw [if_neg (show ¬ t ≤ s by omega)]
      by_cases hin : (s+1)*sectorSizeBytes ≤ d.image.size
      · rw [if_pos ⟨hs,hin⟩,bind_ok (readSectors_run hin),readPartitionEntry_sector (by decide)]
        dsimp only
        split
        · exact Or.inl ⟨rfl,Or.inl ⟨_,rfl⟩⟩
        · split
          · exact Or.inr ⟨_,_,_,_,rfl,rfl⟩
          · rw [hk]
            exact Or.inr ⟨_,_,_,_,rfl,rfl⟩
      · rw [if_neg fun h => hin h.2,bind_error (readSectors_stops hin)]
        exact Or.inl ⟨rfl,Or.inr rfl⟩
    · rw [if_pos (show t ≤ s by omega),if_neg fun h => hs h.1]
      exact Or.inl ⟨rfl,Or.inl ⟨_,rfl⟩⟩

/-- `read_ebr` comes to an end. -/
def Ends (stack : ℕ → Byte) (d : Device) (start stop : ℕ) (partition_num : ℤ) (last : PartitionEntry) :
    Prop :=
  ∃ fuel, ∀ d', (readEbr stack fuel start stop partition_num last).run d ≠ .error .outOfFuel d'

theorem ends_of_unfolds {x : ℕ × ℕ × ℕ} {l : List (ℕ × ℕ × ℕ)} (h : Unfolds (ebrNext d.image) [x] l)
    {fuel : ℕ} (hfuel : l.length ≤ fuel) (last : PartitionEntry) (d' : Device) :
    (readEbr stack fuel x.1 x.2.1 (4+(x.2.2:ℤ)) last).run d ≠ .error .outOfFuel d' := by
  induction fuel generalizing x l last with
  | zero =>
    obtain ⟨l,rfl,-⟩ := h.node_inv
    simp at hfuel
  | succ fuel ih =>
    obtain ⟨s,t,k⟩ := x
    obtain ⟨l,rfl,hl⟩ := h.node_inv
    rcases @readEbr_turn stack d s t k fuel last with ⟨-,⟨r,hr⟩ | hr⟩ | ⟨s',t',k',e,hnext,hr⟩
    · rw [hr]
      simp
    · rw [hr]
      simp
    · rw [hr]
      rw [hnext] at hl
      exact ih hl (by simpa using hfuel) e

theorem unfolds_of_ends {fuel : ℕ} {last : PartitionEntry}
    (h : ∀ d', (readEbr stack fuel s t (4+(k:ℤ)) last).run d ≠ .error .outOfFuel d') :
    ∃ l, Unfolds (ebrNext d.image) [(s,t,k)] l := by
  induction fuel generalizing s t k last with
  | zero => exact absurd rfl (h d)
  | succ fuel ih =>
    rcases @readEbr_turn stack d s t k fuel last with ⟨hnext,-⟩ | ⟨s',t',k',e,hnext,hr⟩
    · exact ⟨_,.node (by rw [hnext]; exact .nil)⟩
    · rw [hr] at h
      obtain ⟨l,hl⟩ := ih h
      exact ⟨_,.node (by rw [hnext]; exact hl)⟩

end Run

/-- `read_ebr` comes to an end exactly if the sectors it walks over lead to no ring of extended entries
nested in one another. -/
theorem readEbr_ends_iff (stack : ℕ → Byte) (d : Device) (base : PartitionEntry) (k : ℕ) :
    Ends stack d base.start (u32 (base.start+base.length)) ((5+k:ℕ):ℤ) base ↔
      ∀ s t m, Reach (ebrNext d.image) (base.start,u32 (base.start+base.length),k+1) (s,t,m+1) →
        ¬ Relation.TransGen (Nested d.image t) s s := by
  have hnum : ((5+k:ℕ):ℤ) = 4+((k+1:ℕ):ℤ) := by omega
  rw [← acyclic_iff,hnum]
  constructor
  · rintro ⟨fuel,h⟩
    obtain ⟨l,hl⟩ := unfolds_of_ends h
    exact hl.acyclic
  · intro h
    obtain ⟨l,hl⟩ := h.unfolds (walk_finite _)
    exact ⟨l.length,ends_of_unfolds hl le_rfl base⟩

/-- An extended partition (sectors 1 to 3) whose first sector describes an extended partition that starts
at this sector and ends with it. -/
def ringDisk : Buf := exampleImage 4 [entryPiece 0 446 5 1 3, entryPiece 1 446 5 0 3]

theorem ringDisk_stays (fuel : ℕ) (last : PartitionEntry) :
    (readEbr (fun _ => 0) fuel 1 4 (4+((1:ℕ):ℤ)) last).run ⟨ringDisk,[]⟩ =
      .error .outOfFuel ⟨ringDisk,[]⟩ := by
  induction fuel generalizing last with
  | zero => rfl
  | succ fuel ih =>
    have hnext : ebrNext ringDisk (1,4,1) = [(1,4,1)] := by decide +kernel
    rcases @readEbr_turn (fun _ => 0) ⟨ringDisk,[]⟩ 1 4 1 fuel last with ⟨h,-⟩ | ⟨s',t',k',e,h,hr⟩
    · rw [hnext] at h
      cases h
    · rw [hnext] at h
      cases h
      rw [hr]
      exact ih e

/-- The search for partition 5 does not end on this disk. -/
theorem readEbr_runs_on : (∃ d', (readSectors 0 1 >>= fun mbr =>
      findExtended (fun _ => 0) mbr [1,2,3,4]).run ⟨ringDisk,[]⟩ = .ok (some ⟨5,1,3⟩) d') ∧
    ¬ Ends (fun _ => 0) ⟨ringDisk,[]⟩ 1 (u32 (1+3)) 5 ⟨5,1,3⟩ := by
  obtain ⟨r,d',hrun,hr⟩ := exists_of_endsIn (show endsIn (readSectors 0 1 >>= fun mbr =>
    findExtended (fun _ => 0) mbr [1,2,3,4]) ⟨ringDisk,[]⟩ (fun r _ => decide (r = some ⟨5,1,3⟩)) = true by
      decide +kernel)
  obtain rfl := of_decide_eq_true hr
  refine ⟨⟨d',hrun⟩,?_⟩
  rintro ⟨fuel,h⟩
  exact h _ (ringDisk_stays fuel _)

end MyFsck
