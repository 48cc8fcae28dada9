import MyFsck.Main

/-! Processes of the program: what one that prints says of one that corrects, and a process for all
partitions as processes for each of them. -/
namespace MyFsck

open ByteBuffer ErrorState Numeral Getopt

theorem readPartitionEntry_stack (stack : ℕ → Byte) (sector : Buf) (start : ℕ) {offset : ℤ}
    (h0 : 0 ≤ offset+4) (h : offset+16 ≤ sectorSizeBytes) :
    readPartitionEntry (sectorMemory sector stack) start offset = readPartitionEntry sector.byte start offset := by
  have hmem : ∀ {i}, i < (offset+16).toNat → sectorMemory sector stack i = sector.byte i :=
    fun hi => if_pos (by omega)
  rw [readPartitionEntry_eq _ _ h0,readPartitionEntry_eq _ _ h0,hmem (by omega),
    num_congr fun k hk => hmem (by omega),num_congr fun k hk => hmem (by omega)]

theorem readMbr_stack (stack stack' : ℕ → Byte) (mbr : Buf) {n : ℤ} (hn : n ≤ 4) :
    readMbr stack mbr n = readMbr stack' mbr n := by
  unfold readMbr
  dsimp only
  by_cases h : 0 ≤ (firstPartitionOffset : ℤ)+partitionEntrySize*(n-1)+4
  · have hle : (firstPartitionOffset : ℤ)+partitionEntrySize*(n-1)+16 ≤ (sectorSizeBytes : ℤ) := by
      simp only [firstPartitionOffset,partitionEntrySize,sectorSizeBytes] at h ⊢
      omega
    rw [if_pos h,if_pos h,readPartitionEntry_stack _ _ _ h hle,readPartitionEntry_stack _ _ _ h hle]
  · rw [if_neg h,if_neg h]

theorem readEbr_stack (stack stack' : ℕ → Byte) (fuel start stop : ℕ) (n : ℤ) (last : PartitionEntry) :
    readEbr stack fuel start stop n last = readEbr stack' fuel start stop n last := by
  induction fuel generalizing start stop n last with
  | zero => rfl
  | succ fuel ih =>
    have h0 : (0:ℤ) ≤ (firstPartitionOffset : ℤ)+4 := by decide
    have hoffset : (firstPartitionOffset : ℤ)+16 ≤ (sectorSizeBytes : ℤ) := by decide
    simp only [readEbr,readPartitionEntry_stack stack _ _ h0 hoffset,
      readPartitionEntry_stack stack' _ _ h0 hoffset,ih]

theorem findExtended_stack (stack stack' : ℕ → Byte) (mbr : Buf) {is : List ℤ} (h : ∀ i ∈ is, i ≤ 4) :
    findExtended stack mbr is = findExtended stack' mbr is := by
  induction is with
  | nil => rfl
  | cons i is ih =>
    rw [findExtended,findExtended,readMbr_stack stack stack' mbr (h i (by simp)),
      ih fun j hj => h j (by simp [hj])]

theorem readPartitionInfo_stack (stack stack' : ℕ → Byte) (fuel : ℕ) (old : PartitionEntry) (n : ℤ) :
    readPartitionInfo stack fuel old n = readPartitionInfo stack' fuel old n := by
  have hfind : ∀ mbr, findExtended stack mbr [1,2,3,4] = findExtended stack' mbr [1,2,3,4] := fun mbr =>
    findExtended_stack stack stack' mbr (by decide)
  unfold readPartitionInfo
  refine bind_congr fun mbr => ?_
  by_cases hn : n ≤ 4
  · rw [if_pos hn,if_pos hn,readMbr_stack stack stack' mbr hn]
  · rw [if_neg hn,if_neg hn,hfind]
    refine bind_congr fun base => ?_
    cases base with
    | none => rfl
    | some base => exact readEbr_stack _ _ _ _ _ _ _

/-- An entry as one is read from a sector. -/
def PartitionEntry.Fits (e : PartitionEntry) : Prop := e.type < 256 ∧ e.start < 2^32 ∧ e.length < 2^32

theorem readPartitionEntry_fits (section_ : ℕ → Byte) (start : ℕ) {offset : ℤ} (h : 0 ≤ offset+4) :
    (readPartitionEntry section_ start offset).Fits := by
  rw [readPartitionEntry_eq _ _ h]
  exact ⟨(section_ _).isLt,u32_lt _,num_lt _ _ _⟩

theorem readMbr_fits {stack : ℕ → Byte} {mbr : Buf} {n : ℤ} {d d' : Device} {e : PartitionEntry}
    (h : (readMbr stack mbr n).run d = .ok e d') : e.Fits := by
  unfold readMbr at h
  dsimp only at h
  split at h
  · cases h
    exact readPartitionEntry_fits _ _ ‹_›
  · cases h

theorem readEbr_fits {stack : ℕ → Byte} {fuel start stop : ℕ} {n : ℤ} {last e : PartitionEntry}
    {d d' : Device} (hlast : last.Fits) (h : (readEbr stack fuel start stop n last).run d = .ok e d') :
    e.Fits := by
  have hinvalid : ∀ {e : PartitionEntry}, e.Fits → ({ e with type := invalidType } : PartitionEntry).Fits :=
    fun he => ⟨(by decide : invalidType < 256),he.2⟩
  induction fuel generalizing start stop n last d with
  | zero => cases h
  | succ fuel ih =>
    rw [readEbr] at h
    split at h
    · cases h
      exact hlast
    · split at h
      · cases h
        exact hinvalid hlast
      · obtain ⟨sector,t,-,h⟩ := bind_ok_inv h
        have hentry := readPartitionEntry_fits (sectorMemory sector stack) start
          (by decide : (0:ℤ) ≤ (firstPartitionOffset : ℤ)+4)
        dsimp only at h
        split at h
        · cases h
          exact hinvalid hentry
        · split at h
          · exact ih hentry h
          · exact ih hentry h

theorem findExtended_fits {stack : ℕ → Byte} {mbr : Buf} {is : List ℤ} {d d' : Device} {e : PartitionEntry}
    (h : (findExtended stack mbr is).run d = .ok (some e) d') : e.Fits := by
  induction is generalizing d with
  | nil => cases h
  | cons i is ih =>
    rw [findExtended] at h
    obtain ⟨e',t,he',h⟩ := bind_ok_inv h
    split at h
    · cases h
      exact readMbr_fits he'
    · exact ih h

theorem readPartitionInfo_old (stack : ℕ → Byte) (fuel : ℕ) (n : ℤ) (d : Device) :
    (∀ old, ∃ e, e.type = invalidType ∧ (readPartitionInfo stack fuel old n).run d = .ok e d) ∨
    (∃ e, e.Fits ∧ ∀ old, (readPartitionInfo stack fuel old n).run d = .ok e d) ∨
    ∃ f, ∀ old, (readPartitionInfo stack fuel old n).run d = .error f d := by
  unfold readPartitionInfo
  rcases readSectors_readOnly 0 1 d with ⟨mbr,hmbr⟩ | ⟨f,hf⟩
  · simp only [bind_ok hmbr]
    by_cases hn : n ≤ 4
    · simp only [if_pos hn]
      rcases readMbr_readOnly stack mbr n d with ⟨e,he⟩ | ⟨f,hf⟩
      · exact Or.inr (Or.inl ⟨e,readMbr_fits he,fun _ => he⟩)
      · exact Or.inr (Or.inr ⟨f,fun _ => hf⟩)
    · simp only [if_neg hn]
      rcases findExtended_readOnly stack mbr [1,2,3,4] d with ⟨base,hbase⟩ | ⟨f,hf⟩
      · simp only [bind_ok hbase]
        cases base with
        | none => exact Or.inl fun old => ⟨_,rfl,rfl⟩
        | some base =>
          rcases readEbr_readOnly stack fuel base.start (u32 (base.start+base.length)) n base d with
            ⟨e,he⟩ | ⟨f,hf⟩
          · exact Or.inr (Or.inl ⟨e,readEbr_fits (findExtended_fits hbase) he,fun _ => he⟩)
          · exact Or.inr (Or.inr ⟨f,fun _ => hf⟩)
      · exact Or.inr (Or.inr ⟨f,fun _ => bind_error hf⟩)
  · exact Or.inr (Or.inr ⟨f,fun _ => bind_error hf⟩)

/-- Under the number `n` there is no partition, whatever memory holds. -/
def Missing (fuel : ℕ) (n : ℤ) (d : Device) : Prop :=
  ∀ stack old, ∃ e, e.type = invalidType ∧ (readPartitionInfo stack fuel old n).run d = .ok e d

/-- Under the number `n` there is the partition `e`. -/
structure There (fuel : ℕ) (n : ℤ) (d : Device) (e : PartitionEntry) : Prop where
  valid : e.type ≠ invalidType
  fits : e.Fits
  found : ∀ stack old, (readPartitionInfo stack fuel old n).run d = .ok e d

/-- The search for the partition `n` stops. -/
def Unreadable (fuel : ℕ) (n : ℤ) (d : Device) (f : Fault) : Prop :=
  ∀ stack old, (readPartitionInfo stack fuel old n).run d = .error f d

theorem readPartitionInfo_cases (fuel : ℕ) (n : ℤ) (d : Device) :
    Missing fuel n d ∨ (∃ e, There fuel n d e) ∨ ∃ f, Unreadable fuel n d f := by
  have hstack : ∀ stack old, readPartitionInfo stack fuel old n = readPartitionInfo (fun _ => 0) fuel old n :=
    fun stack old => readPartitionInfo_stack stack _ fuel old n
  rcases readPartitionInfo_old (fun _ => 0) fuel n d with h | ⟨e,hfits,h⟩ | ⟨f,h⟩
  · refine Or.inl fun stack old => ?_
    rw [hstack]
    exact h old
  · by_cases ht : e.type = invalidType
    · refine Or.inl fun stack old => ⟨e,ht,?_⟩
      rw [hstack]
      exact h old
    · refine Or.inr (Or.inl ⟨e,ht,hfits,fun stack old => ?_⟩)
      rw [hstack]
      exact h old
  · refine Or.inr (Or.inr ⟨f,fun stack old => ?_⟩)
    rw [hstack]
    exact h old

/-- What is done about a partition that is there. -/
def correctEntry (fuel : ℕ) (e : PartitionEntry) : Fsck Unit :=
  if e.type = ext2Fs then loadGlobals e >>= fun g => passes g fuel else pure ()

section One

variable {stack : ℕ → Byte} {fuel : ℕ} {old e : PartitionEntry} {n : ℤ} {d : Device}

theorem correctOnePartition_missing (h : (readPartitionInfo stack fuel old n).run d = .ok e d)
    (he : e.type = invalidType) : (correctOnePartition stack fuel old n).run d = .ok (some (-1),e) d := by
  rw [correctOnePartition,bind_ok h,if_pos he]
  rfl

theorem correctOnePartition_there (h : (readPartitionInfo stack fuel old n).run d = .ok e d)
    (he : e.type ≠ invalidType) : (correctOnePartition stack fuel old n).run d =
      (correctEntry fuel e >>= fun _ => pure (if e.type = ext2Fs then none else some 0,e)).run d := by
  rw [correctOnePartition,bind_ok h,if_neg he,correctEntry]
  by_cases ht : e.type = ext2Fs
  · rw [if_neg (not_not.mpr ht),if_pos ht,if_pos ht,bind_assoc]
  · rw [if_pos ht,if_neg ht,if_neg ht,pure_bind]

theorem correctOnePartition_stops {f : Fault} (h : (readPartitionInfo stack fuel old n).run d = .error f d) :
    (correctOnePartition stack fuel old n).run d = .error f d := bind_error h

variable {left : ℤ → ℤ} {turns : ℕ} (h0 : n ≠ 0)
include h0

theorem correctPartition_missing (h : Missing fuel n d) :
    (correctPartition stack fuel left turns old n).run d = .ok [] d := by
  obtain ⟨e,he,hrun⟩ := h stack old
  rw [correctPartition,if_neg h0,bind_ok (correctOnePartition_missing hrun he)]
  rfl

theorem correctPartition_ok (h : There fuel n d e) {d' : Device} (hr : (correctEntry fuel e).run d = .ok () d') :
    ∃ es, (correctPartition stack fuel left turns old n).run d = .ok es d' := by
  have hone := (correctOnePartition_there (h.found stack old) h.valid).trans (bind_ok hr)
  rw [correctPartition,if_neg h0,bind_ok hone]
  exact ⟨_,rfl⟩

theorem correctPartition_error (h : There fuel n d e) {f : Fault} {d' : Device}
    (hr : (correctEntry fuel e).run d = .error f d') :
    (correctPartition stack fuel left turns old n).run d = .error f d' := by
  have hone := (correctOnePartition_there (h.found stack old) h.valid).trans (bind_error hr)
  rw [correctPartition,if_neg h0,bind_error hone]

theorem correctPartition_unreadable {f : Fault} (h : Unreadable fuel n d f) :
    (correctPartition stack fuel left turns old n).run d = .error f d := by
  rw [correctPartition,if_neg h0,bind_error (correctOnePartition_stops (h stack old))]

end One

/-- The two runs end in the same way, with the same files and the same log of the passes. -/
def SameEffect {α β : Type} (r : EStateM.Result Fault World α) (r' : EStateM.Result Fault World β) : Prop :=
  match r, r' with
  | .ok _ w, .ok _ w' => w.files = w'.files ∧ w.out = w'.out
  | .error f w, .error f' w' => f = f' ∧ w.files = w'.files ∧ w.out = w'.out
  | _, _ => False

theorem SameEffect.trans {α β γ : Type} {r : EStateM.Result Fault World α}
    {r' : EStateM.Result Fault World β} {r'' : EStateM.Result Fault World γ} (h : SameEffect r r')
    (h' : SameEffect r' r'') : SameEffect r r'' := by
  cases r <;> cases r' <;> cases r'' <;> simp_all [SameEffect]

section Open

variable {path : List Char} {image : Buf} {w : World}

@[simp] theorem leave_files_self (d : Device) : (w.leave path d).files path = some d.image :=
  Function.update_self ..

theorem leave_leave (d d' : Device) : (w.leave path d).leave path d' = w.leave path d' := by
  unfold World.leave
  rw [Function.update_idem]

theorem onDevice_ok {α : Type} {x : Fsck α} {a : α} {d : Device} (h : x.run ⟨image,w.out⟩ = .ok a d) :
    (onDevice path image x).run w = .ok a (w.leave path d) := by
  have hget : (get : Process World).run w = .ok w w := rfl
  rw [onDevice,bind_ok hget,h]
  rfl

theorem onDevice_error {α : Type} {x : Fsck α} {f : Fault} {d : Device}
    (h : x.run ⟨image,w.out⟩ = .error f d) :
    (onDevice path image x).run w = .error f (w.leave path d) := by
  have hget : (get : Process World).run w = .ok w w := rfl
  rw [onDevice,bind_ok hget,h]
  rfl

theorem leave_same (h : w.files path = some image) : w.leave path ⟨image,w.out⟩ = w := by
  unfold World.leave
  rw [← h,Function.update_eq_self]

end Open

/-- The world behind the loop over the arguments. -/
def World.greet (w : World) (argv : List (List Char)) (s : Settings) : World :=
  { w with text := w.text++if s.help = true ∨ optind argv ≠ 5 then usage (argv.headD []) else [] }

def World.say (w : World) (cs : List Char) : World := { w with text := w.text++cs }

section Run

variable {m : Memory} {fuel turns : ℕ} {argv : List (List Char)} {s : Settings} {path : List Char}
  {image : Buf} {w : World}

theorem main_greet (hs : settings argv = some s) (hpath : s.imagePath = some path)
    (hfile : w.files path = some image) : (main m fuel turns argv).run w =
      (mainOpen m fuel turns s path image).run (w.greet argv s) := by
  have hgreet : (printText (if s.help = true ∨ optind argv ≠ 5 then usage (argv.headD []) else [])).run w =
      .ok () (w.greet argv s) := rfl
  have hget : (get : Process World).run (w.greet argv s) = .ok (w.greet argv s) (w.greet argv s) := rfl
  have hopen : (w.greet argv s).files path = some image := hfile
  rw [main,hs]
  dsimp only
  rw [bind_ok hgreet,hpath]
  dsimp only
  rw [bind_ok hget,hopen]

theorem greet_leave (hfile : w.files path = some image) :
    (w.greet argv s).leave path ⟨image,w.out⟩ = w.greet argv s := leave_same hfile

section Print

variable (hs : settings argv = some s) (hpath : s.imagePath = some path) (hfile : w.files path = some image)
  (hp : s.printPartitionNum ≠ -1)
include hs hpath hfile hp

theorem main_print_ok {r : ℤ × List Char} (h : (printPartitionInfo m.stack fuel ⟨0,0,0⟩ s.printPartitionNum).run
    ⟨image,w.out⟩ = .ok r ⟨image,w.out⟩) : (main m fuel turns argv).run w =
      .ok r.1 ((w.greet argv s).say r.2) := by
  have hopen : (onDevice path image (printPartitionInfo m.stack fuel ⟨0,0,0⟩ s.printPartitionNum)).run
      (w.greet argv s) = .ok r (w.greet argv s) := by
    have hrun : (onDevice path image (printPartitionInfo m.stack fuel ⟨0,0,0⟩ s.printPartitionNum)).run
        (w.greet argv s) = .ok r ((w.greet argv s).leave path ⟨image,w.out⟩) := onDevice_ok h
    rwa [greet_leave hfile] at hrun
  rw [main_greet hs hpath hfile,mainOpen,if_pos hp,bind_ok hopen]
  rfl

theorem main_print_missing (h : Missing fuel s.printPartitionNum ⟨image,w.out⟩) :
    (main m fuel turns argv).run w = .ok (-1) ((w.greet argv s).say ['-','1','\n']) := by
  obtain ⟨e,he,hrun⟩ := h m.stack ⟨0,0,0⟩
  refine main_print_ok hs hpath hfile hp (r := (-1,['-','1','\n'])) ?_
  rw [printPartitionInfo,bind_ok hrun,if_pos he]
  rfl

theorem main_print_there {e : PartitionEntry} (h : There fuel s.printPartitionNum ⟨image,w.out⟩ e) :
    (main m fuel turns argv).run w = .ok 0 ((w.greet argv s).say (entryLine e)) := by
  refine main_print_ok hs hpath hfile hp (r := (0,entryLine e)) ?_
  rw [printPartitionInfo,bind_ok (h.found m.stack ⟨0,0,0⟩),if_neg h.valid]
  rfl

theorem main_print_unreadable {f : Fault} (h : Unreadable fuel s.printPartitionNum ⟨image,w.out⟩ f) :
    (main m fuel turns argv).run w = .error f (w.greet argv s) := by
  have hrun : (printPartitionInfo m.stack fuel ⟨0,0,0⟩ s.printPartitionNum).run ⟨image,(w.greet argv s).out⟩ =
      .error f ⟨image,w.out⟩ := bind_error (h m.stack ⟨0,0,0⟩)
  rw [main_greet hs hpath hfile,mainOpen,if_pos hp,bind_error (onDevice_error hrun),greet_leave hfile]

end Print

section Correct

variable (hs : settings argv = some s) (hpath : s.imagePath = some path) (hfile : w.files path = some image)
  (hp : s.printPartitionNum = -1) (hc : s.correctPartitionNum ≠ -1)
include hs hpath hfile hp hc

theorem main_correct : (main m fuel turns argv).run w = (do
    let _ ← onDevice path image (correctPartition m.stack fuel m.left turns ⟨0,0,0⟩ s.correctPartitionNum)
    pure 0 : Process ℤ).run (w.greet argv s) := by
  rw [main_greet hs hpath hfile,mainOpen,if_neg (not_not.mpr hp),if_pos hc]

variable (h0 : s.correctPartitionNum ≠ 0)
include h0

theorem main_correct_missing (h : Missing fuel s.correctPartitionNum ⟨image,w.out⟩) :
    (main m fuel turns argv).run w = .ok 0 (w.greet argv s) := by
  have hone : (correctPartition m.stack fuel m.left turns ⟨0,0,0⟩ s.correctPartitionNum).run
      ⟨image,(w.greet argv s).out⟩ = .ok [] ⟨image,w.out⟩ := correctPartition_missing h0 h
  rw [main_correct hs hpath hfile hp hc,bind_ok (onDevice_ok hone),greet_leave hfile]
  rfl

theorem main_correct_there {e : PartitionEntry} (h : There fuel s.correctPartitionNum ⟨image,w.out⟩ e) :
    SameEffect ((main m fuel turns argv).run w) ((onDevice path image (correctEntry fuel e)).run w) := by
  rw [main_correct hs hpath hfile hp hc]
  cases hr : (correctEntry fuel e).run ⟨image,w.out⟩ with
  | ok u d =>
    obtain ⟨es,hall⟩ : ∃ es, (correctPartition m.stack fuel m.left turns ⟨0,0,0⟩ s.correctPartitionNum).run
        ⟨image,(w.greet argv s).out⟩ = .ok es d := correctPartition_ok h0 h hr
    rw [bind_ok (onDevice_ok hall),onDevice_ok hr]
    exact ⟨rfl,rfl⟩
  | error f d =>
    have hall : (correctPartition m.stack fuel m.left turns ⟨0,0,0⟩ s.correctPartitionNum).run
        ⟨image,(w.greet argv s).out⟩ = .error f d := correctPartition_error h0 h hr
    rw [bind_error (onDevice_error hall),onDevice_error hr]
    exact ⟨rfl,rfl,rfl⟩

theorem main_correct_unreadable {f : Fault} (h : Unreadable fuel s.correctPartitionNum ⟨image,w.out⟩ f) :
    (main m fuel turns argv).run w = .error f (w.greet argv s) := by
  have hone : (correctPartition m.stack fuel m.left turns ⟨0,0,0⟩ s.correctPartitionNum).run
      ⟨image,(w.greet argv s).out⟩ = .error f ⟨image,w.out⟩ := correctPartition_unreadable h0 h
  rw [main_correct hs hpath hfile hp hc,bind_error (onDevice_error hone),greet_leave hfile]

end Correct

end Run

end MyFsck
