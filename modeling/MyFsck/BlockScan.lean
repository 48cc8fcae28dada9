import MyFsck.LostFound
import MyFsck.Walks

/-! What the scan of one directory block does on any bytes: which entries it meets, when it ends, and
when it stays inside the block. -/
namespace MyFsck

open ByteBuffer ErrorState

/-- The entries of a block as the format has them, used and unused, up to the end of the block. -/
inductive Slots (b : Buf) : ℕ → List (ℕ × DirEntry) → Prop
  | done : Slots b b.size []
  | slot {off : ℕ} {es : List (ℕ × DirEntry)} : 8 ≤ (entryAt b off).recLen →
      4 ∣ (entryAt b off).recLen →
      (num b.byte off 4 ≠ 0 → 8+(entryAt b off).nameLen ≤ (entryAt b off).recLen) →
      Slots b (off+(entryAt b off).recLen) es → Slots b off ((off,entryAt b off)::es)

def inUse (p : ℕ × DirEntry) : Bool := p.2.inode != 0

theorem Slots.le_size {b : Buf} {off : ℕ} {slots : List (ℕ × DirEntry)} (h : Slots b off slots) :
    off ≤ b.size := by
  induction h with
  | done => exact le_rfl
  | slot _ _ _ _ ih => omega

theorem Slots.functional {b : Buf} {off : ℕ} {slots slots' : List (ℕ × DirEntry)}
    (h : Slots b off slots) (h' : Slots b off slots') : slots = slots' := by
  induction h generalizing slots' with
  | done =>
    generalize hs : b.size = n at h'
    cases h' with
    | done => rfl
    | slot _ _ _ hrest =>
      have hle := hrest.le_size
      omega
  | slot _ _ _ hrest ih =>
    cases h' with
    | done =>
      have hle := hrest.le_size
      omega
    | slot _ _ _ hrest' => rw [ih hrest']

def slotsFrom (b : Buf) : (turns off : ℕ) → List (ℕ × DirEntry)
  | 0, _ => []
  | turns+1, off =>
    if off < b.size then (off,entryAt b off)::slotsFrom b turns (off+(entryAt b off).recLen) else []

/-- The entries of a block, used and unused. -/
def slotsOf (b : Buf) : List (ℕ × DirEntry) := slotsFrom b b.size 0

/-- The entries of the block fill it up. -/
def Whole (b : Buf) : Prop := Slots b 0 (slotsOf b)

theorem Slots.slotsFrom_eq {b : Buf} {off : ℕ} {slots : List (ℕ × DirEntry)}
    (h : Slots b off slots) {turns : ℕ} (ht : b.size ≤ turns+off) :
    slotsFrom b turns off = slots := by
  induction h generalizing turns with
  | done =>
    cases turns with
    | zero => rfl
    | succ turns => rw [slotsFrom,if_neg (lt_irrefl _)]
  | @slot off es h8 _ _ hrest ih =>
    have hle := hrest.le_size
    cases turns with
    | zero => omega
    | succ turns => rw [slotsFrom,if_pos (by omega),ih (by omega)]

theorem Slots.slotsOf_eq {b : Buf} {slots : List (ℕ × DirEntry)} (h : Slots b 0 slots) :
    slotsOf b = slots := h.slotsFrom_eq (by omega)

theorem Slots.whole {b : Buf} {slots : List (ℕ × DirEntry)} (h : Slots b 0 slots) : Whole b := by
  rw [Whole,h.slotsOf_eq]
  exact h

def slotsCheck (b : Buf) : (turns off : ℕ) → Bool
  | 0, off => decide (off = b.size)
  | turns+1, off => decide (off = b.size) || (decide (off < b.size ∧ 8 ≤ (entryAt b off).recLen ∧
      4 ∣ (entryAt b off).recLen ∧
      (num b.byte off 4 ≠ 0 → 8+(entryAt b off).nameLen ≤ (entryAt b off).recLen)) &&
    slotsCheck b turns (off+(entryAt b off).recLen))

theorem slots_of_check {b : Buf} {turns off : ℕ} (h : slotsCheck b turns off = true) :
    ∃ es, Slots b off es := by
  induction turns generalizing off with
  | zero =>
    have hoff : off = b.size := by simpa [slotsCheck] using h
    rw [hoff]
    exact ⟨[],.done⟩
  | succ turns ih =>
    simp only [slotsCheck,Bool.or_eq_true,Bool.and_eq_true,decide_eq_true_eq] at h
    rcases h with hoff | ⟨⟨-,h8,hdvd,hl⟩,hrest⟩
    · rw [hoff]
      exact ⟨[],.done⟩
    · obtain ⟨es,hes⟩ := ih hrest
      exact ⟨_,.slot h8 hdvd hl hes⟩

theorem whole_of_check {b : Buf} (h : slotsCheck b b.size 0 = true) : Whole b := by
  obtain ⟨es,hes⟩ := slots_of_check h
  exact hes.whole

theorem Slots.chain {b : Buf} {off : ℕ} {slots : List (ℕ × DirEntry)} (h : Slots b off slots) :
    Chain b off (slots.takeWhile inUse) := by
  induction h with
  | done => exact .done
  | @slot off es h8 _ hlive hrest ih =>
    have hle := hrest.le_size
    by_cases hz : num b.byte off 4 = 0
    · have hu : inUse (off,entryAt b off) = false := by simpa [inUse,entryAt] using hz
      rw [List.takeWhile_cons,hu]
      exact .unused (by omega) hz
    · have hu : inUse (off,entryAt b off) = true := by simpa [inUse,entryAt] using hz
      rw [List.takeWhile_cons,hu]
      exact .live hz (hlive hz) ih

theorem takeWhile_eq_filter_iff {α : Type} (p : α → Bool) (l : List α) :
    l.takeWhile p = l.filter p ↔ l.Pairwise fun a b => p a = false → p b = false := by
  induction l with
  | nil => simp
  | cons a l ih =>
    rw [List.pairwise_cons]
    cases ha : p a with
    | true => simp [ha,ih]
    | false =>
      simp only [List.takeWhile_cons,List.filter_cons,ha,Bool.false_eq_true,if_false,forall_const]
      constructor
      · intro h
        have hall : ∀ b ∈ l, p b = false := by simpa using List.filter_eq_nil_iff.mp h.symm
        exact ⟨hall,List.pairwise_of_forall_mem_list fun _ _ _ hb _ => hall _ hb⟩
      · intro h
        exact (List.filter_eq_nil_iff.mpr fun b hb => by simp [h.1 b hb]).symm

/-- A body that writes down the entries it is given. -/
def record (_count offset : ℕ) (entry : DirEntry) (seen : List (ℕ × DirEntry)) :
    Fsck (List (ℕ × DirEntry)) := pure (seen ++ [(offset,entry)])

theorem foldEntries_record (count : ℕ) (es seen : List (ℕ × DirEntry)) (d : Device) :
    (foldEntries record count es seen).run d = .ok (seen ++ es) d := by
  induction es generalizing count seen with
  | nil => simp [foldEntries]
  | cons p es ih =>
    rw [foldEntries,bind_ok (show (record count p.1 p.2 seen).run d = .ok _ d from rfl),ih]
    simp

theorem Slots.scan {b : Buf} {slots : List (ℕ × DirEntry)} (h : Slots b 0 slots) {σ : Type}
    (body : ℕ → ℕ → DirEntry → σ → Fsck σ) (s : σ) (d : Device) :
    (scanEntries b.size (fun _ => b) body b.size 0 0 s).run d =
      (foldEntries body 0 (slots.takeWhile inUse) s).run d := by
  obtain ⟨he,hw⟩ := h.chain.wellFormed
  rw [scanEntries_const body hw,he]

/-- The scan runs every body on exactly the entries in use, in order, if and only if no entry in use
stands behind an unused one. -/
theorem scan_meets_used_iff {b : Buf} {slots : List (ℕ × DirEntry)} (h : Slots b 0 slots) :
    (∀ (σ : Type) (body : ℕ → ℕ → DirEntry → σ → Fsck σ) (s : σ) (d : Device),
      (scanEntries b.size (fun _ => b) body b.size 0 0 s).run d =
        (foldEntries body 0 (slots.filter inUse) s).run d) ↔
      slots.Pairwise fun p q => inUse p = false → inUse q = false := by
  rw [← takeWhile_eq_filter_iff]
  constructor
  · intro hall
    have hrun := hall _ record [] ⟨b,[]⟩
    rw [h.scan,foldEntries_record,foldEntries_record] at hrun
    simpa using (EStateM.Result.ok.inj hrun).1
  · intro heq σ body s d
    rw [h.scan,heq]

/-- A block of entries given as bytes, zero behind them. -/
def entryBlock (entries : List (List ℕ)) : Buf := Buf.ofFn 1024 (pieces [piece 0 entries.flatten])

theorem Slots.of_len {b : Buf} {off len : ℕ} {es : List (ℕ × DirEntry)}
    (hl : (entryAt b off).recLen = len)
    (h : 8 ≤ len ∧ 4 ∣ len ∧ (num b.byte off 4 ≠ 0 → 8+(entryAt b off).nameLen ≤ len))
    (hrest : Slots b (off+len) es) : Slots b off ((off,entryAt b off)::es) := by
  subst hl
  exact .slot h.1 h.2.1 h.2.2 hrest

/-- `.`, `..`, a file, and an unused entry up to the end of the block. -/
def tailBlock : Buf := entryBlock [entryBytes 2 12 2 [46,0,0,0],entryBytes 2 12 2 [46,46,0,0],
  entryBytes 12 12 1 [97,0,0,0],entryBytes 0 988 0 []]

/-- `.`, an unused entry, and a file behind it. -/
def gapBlock : Buf :=
  entryBlock [entryBytes 2 12 2 [46,0,0,0],entryBytes 0 12 0 [0,0,0,0],entryBytes 12 1000 1 [97]]

theorem tailBlock_slots : Slots tailBlock 0 [(0,entryAt tailBlock 0),(12,entryAt tailBlock 12),
    (24,entryAt tailBlock 24),(36,entryAt tailBlock 36)] :=
  @Slots.of_len _ _ 12 _ (by decide +kernel) (by decide +kernel)
    (@Slots.of_len _ _ 12 _ (by decide +kernel) (by decide +kernel)
      (@Slots.of_len _ _ 12 _ (by decide +kernel) (by decide +kernel)
        (@Slots.of_len _ _ 988 _ (by decide +kernel) (by decide +kernel) .done)))

theorem gapBlock_slots : Slots gapBlock 0 [(0,entryAt gapBlock 0),(12,entryAt gapBlock 12),
    (24,entryAt gapBlock 24)] :=
  @Slots.of_len _ _ 12 _ (by decide +kernel) (by decide +kernel)
    (@Slots.of_len _ _ 12 _ (by decide +kernel) (by decide +kernel)
      (@Slots.of_len _ _ 1000 _ (by decide +kernel) (by decide +kernel) .done))

theorem scan_meets_used_iff_tail :
    (scanEntries 1024 (fun _ => tailBlock) record 1024 0 0 []).run ⟨Buf.zero 0,[]⟩ =
      (foldEntries record 0 ([(0,entryAt tailBlock 0),(12,entryAt tailBlock 12),
        (24,entryAt tailBlock 24),(36,entryAt tailBlock 36)].filter inUse) []).run ⟨Buf.zero 0,[]⟩ :=
  (scan_meets_used_iff tailBlock_slots).mpr (by decide +kernel) _ record [] _

/-- Behind an unused entry the scan sees nothing: the file in the last entry is not met. -/
theorem scan_misses_used : Slots gapBlock 0 [(0,entryAt gapBlock 0),(12,entryAt gapBlock 12),
      (24,entryAt gapBlock 24)] ∧
    ¬ (scanEntries 1024 (fun _ => gapBlock) record 1024 0 0 []).run ⟨Buf.zero 0,[]⟩ =
      (foldEntries record 0 ([(0,entryAt gapBlock 0),(12,entryAt gapBlock 12),
        (24,entryAt gapBlock 24)].filter inUse) []).run ⟨Buf.zero 0,[]⟩ := by
  refine ⟨gapBlock_slots,fun h => ?_⟩
  have hs := gapBlock_slots.scan record [] ⟨Buf.zero 0,[]⟩
  rw [foldEntries_record] at hs h
  have he := (EStateM.Result.ok.inj (hs.symm.trans h)).1
  exact absurd he (by decide +kernel)

/-- The bytes of a name that are read: up to its first zero byte. -/
def nameRead (b : Buf) (pos : ℕ) : ℕ → ℕ
  | 0 => 0
  | n+1 => if b.byte pos = 0 then 1 else nameRead b (pos+1) n+1

/-- The header of the entry at `off`, and what is read of its name, lie in the block. -/
def EntryIn (b : Buf) (off : ℕ) : Prop :=
  off+8+nameRead b (off+8) (entryAt b off).nameLen ≤ b.size

theorem copyName_in {b : Buf} {pos n : ℕ} (h : pos+nameRead b pos n ≤ b.size) :
    copyName b pos n = some (nameAt b pos n) := by
  induction n generalizing pos with
  | zero => rfl
  | succ n ih =>
    by_cases hz : b.byte pos = 0
    · have hr : nameRead b pos (n+1) = 1 := by simp [nameRead,hz]
      have hload : b.load pos = some (b.byte pos) := Buf.load_eq (by omega)
      simp [copyName,nameAt,hload,hz]
    · have hr : nameRead b pos (n+1) = nameRead b (pos+1) n+1 := if_neg hz
      have hload : b.load pos = some (b.byte pos) := Buf.load_eq (by omega)
      have hrest := @ih (pos+1) (by omega)
      simp only [copyName,nameAt,hload,hrest,Option.bind_eq_bind,Option.bind_some,if_neg hz]
      rfl

theorem copyName_out {b : Buf} {pos n : ℕ} (hp : pos ≤ b.size) (h : ¬ pos+nameRead b pos n ≤ b.size) :
    copyName b pos n = none := by
  induction n generalizing pos with
  | zero =>
    simp only [nameRead] at h
    omega
  | succ n ih =>
    by_cases hlt : pos < b.size
    · have hload : b.load pos = some (b.byte pos) := Buf.load_eq hlt
      by_cases hz : b.byte pos = 0
      · have hr : nameRead b pos (n+1) = 1 := by simp [nameRead,hz]
        omega
      · have hr : nameRead b pos (n+1) = nameRead b (pos+1) n+1 := if_neg hz
        have hrest := @ih (pos+1) (by omega) (by omega)
        simp only [copyName,hload,hrest,Option.bind_eq_bind,Option.bind_some,if_neg hz]
        rfl
    · have hload : b.load pos = none := by simp [Buf.load,hlt]
      simp [copyName,hload]

theorem readDirEntryInBlock_cases (b : Buf) (off : ℕ) :
    (off+4 ≤ b.size ∧ num b.byte off 4 = 0 ∧ readDirEntryInBlock b off = some none) ∨
    (num b.byte off 4 ≠ 0 ∧ EntryIn b off ∧
      readDirEntryInBlock b off = some (some (entryAt b off))) ∨
    (¬ (off+4 ≤ b.size ∧ num b.byte off 4 = 0) ∧ ¬ EntryIn b off ∧
      readDirEntryInBlock b off = none) := by
  unfold EntryIn
  by_cases h₄ : off+4 ≤ b.size
  · have hp : parse b off 4 = some (num b.byte off 4) := parse_eq (by norm_num) h₄
    by_cases hz : num b.byte off 4 = 0
    · exact Or.inl ⟨h₄,hz,readDirEntryInBlock_unused hz h₄⟩
    · right
      by_cases h₈ : off+8 ≤ b.size
      · have h₁ : parse b (off+4) 2 = some (num b.byte (off+4) 2) := parse_eq (by norm_num) (by omega)
        have h₂ : parse b (off+6) 1 = some (num b.byte (off+6) 1) := parse_eq (by norm_num) (by omega)
        have h₃ : parse b (off+7) 1 = some (num b.byte (off+7) 1) := parse_eq (by norm_num) (by omega)
        have hr : readDirEntryInBlock b off = (copyName b (off+8) (entryAt b off).nameLen).bind
            fun name => some (some { entryAt b off with name := name }) := by
          unfold readDirEntryInBlock
          rw [hp,Option.bind_eq_bind,Option.bind_some,if_neg hz,h₁,h₂,h₃]
          rfl
        by_cases hin : off+8+nameRead b (off+8) (entryAt b off).nameLen ≤ b.size
        · exact Or.inl ⟨hz,hin,by rw [hr,copyName_in hin]; rfl⟩
        · exact Or.inr ⟨fun h => hz h.2,hin,by rw [hr,copyName_out h₈ hin]; rfl⟩
      · refine Or.inr ⟨fun h => hz h.2,by omega,?_⟩
        have hcut : parse b (off+7) 1 = none := by
          rw [parse,if_neg (by omega)]
        unfold readDirEntryInBlock
        rw [hp,Option.bind_eq_bind,Option.bind_some,if_neg hz,hcut]
        cases parse b (off+4) 2 with
        | none => rfl
        | some rec_len =>
          cases parse b (off+6) 1 with
          | none => rfl
          | some name_len => rfl
  · refine Or.inr (Or.inr ⟨fun h => h₄ h.1,by omega,?_⟩)
    unfold readDirEntryInBlock
    rw [parse,if_neg h₄]
    rfl

/-- A scan from `off` on ends, and stays in the block: every entry met is in the block and moves the
scan on, up to the end of the block, an unused entry, or an entry that stops the scan. `upd` is what
the body makes of the block at an entry. -/
inductive ScanSafe (stop : DirEntry → Bool) (upd : ℕ → ℕ → DirEntry → Buf → Buf) :
    (count off : ℕ) → Buf → Prop
  | done {count off : ℕ} {b : Buf} : b.size ≤ off → ScanSafe stop upd count off b
  | unused {count off : ℕ} {b : Buf} : off+4 ≤ b.size → num b.byte off 4 = 0 →
      ScanSafe stop upd count off b
  | last {count off : ℕ} {b : Buf} : num b.byte off 4 ≠ 0 → EntryIn b off →
      stop (entryAt b off) = true → ScanSafe stop upd count off b
  | next {count off : ℕ} {b : Buf} : num b.byte off 4 ≠ 0 → EntryIn b off →
      stop (entryAt b off) = false → 0 < (entryAt b off).recLen →
      ScanSafe stop upd (count+1) (off+(entryAt b off).recLen) (upd count off (entryAt b off) b) →
      ScanSafe stop upd count off b

section Loops

variable {σ : Type} {blk : σ → Buf} {body : ℕ → ℕ → DirEntry → σ → Fsck σ} {n : ℕ}

/-- What a body does that ends well at every entry in the block, and makes `upd` of the block. -/
structure BodyEnds (n : ℕ) (blk : σ → Buf) (body : ℕ → ℕ → DirEntry → σ → Fsck σ)
    (upd : ℕ → ℕ → DirEntry → Buf → Buf) : Prop where
  ends : ∀ count off s d, (blk s).size = n → off+8 ≤ n → ∃ s' d',
    (body count off (entryAt (blk s) off) s).run d = .ok s' d' ∧
      blk s' = upd count off (entryAt (blk s) off) (blk s)
  size : ∀ count off b, (upd count off (entryAt b off) b).size = b.size
  stays : ∀ count off b, off+8 ≤ b.size → num b.byte off 4 ≠ 0 → (entryAt b off).recLen = 0 →
    num (upd count off (entryAt b off) b).byte off 4 ≠ 0 ∧
      (entryAt (upd count off (entryAt b off) b) off).recLen = 0

variable {upd : ℕ → ℕ → DirEntry → Buf → Buf}

theorem scanEntries_turn {turns off count : ℕ} {s s' : σ} {d d' : Device} (hoff : off < n)
    (hr : readDirEntryInBlock (blk s) off = some (some (entryAt (blk s) off)))
    (hb : (body count off (entryAt (blk s) off) s).run d = .ok s' d') :
    (scanEntries n blk body (turns+1) off count s).run d =
      (scanEntries n blk body turns (off+(entryAt (blk s) off).recLen) (count+1) s').run d' := by
  rw [scanEntries,if_pos hoff,hr,bind_ok (inBounds_some _ d)]
  dsimp only
  rw [bind_ok hb]

theorem scanEntries_stuck (hb : BodyEnds n blk body upd) {turns off count : ℕ} {s : σ} {d : Device}
    (hs : (blk s).size = n) (hoff : off < n) (hn : num (blk s).byte off 4 ≠ 0)
    (hz : (entryAt (blk s) off).recLen = 0) :
    ¬ ∃ s' d', (scanEntries n blk body turns off count s).run d = .ok s' d' := by
  induction turns generalizing count s d with
  | zero =>
    rintro ⟨s',d',h⟩
    rw [scanEntries,if_pos hoff] at h
    cases h
  | succ turns ih =>
    rcases readDirEntryInBlock_cases (blk s) off with ⟨_,h,_⟩ | ⟨_,hin,hr⟩ | ⟨_,_,hr⟩
    · exact absurd h hn
    · have h₈ : off+8 ≤ n := by
        unfold EntryIn at hin
        omega
      obtain ⟨s₁,d₁,hrun,hblk⟩ := hb.ends count off s d hs h₈
      obtain ⟨hn₁,hz₁⟩ := hb.stays count off (blk s) (by omega) hn hz
      rw [← hblk] at hn₁ hz₁
      rw [scanEntries_turn hoff hr hrun,hz,Nat.add_zero]
      exact ih (by rw [hblk,hb.size,hs]) hn₁ hz₁
    · rintro ⟨s',d',h⟩
      rw [scanEntries,if_pos hoff,hr,bind_error (inBounds_none d)] at h
      cases h

theorem scanEntries_ends_iff (hb : BodyEnds n blk body upd) {turns off count : ℕ} {s : σ} {d : Device}
    (hs : (blk s).size = n) (ht : n ≤ turns+off) :
    (∃ s' d', (scanEntries n blk body turns off count s).run d = .ok s' d') ↔
      ScanSafe (fun _ => false) upd count off (blk s) := by
  induction turns generalizing off count s d with
  | zero =>
    refine iff_of_true ⟨s,d,?_⟩ (.done (by omega))
    rw [scanEntries,if_neg (by omega)]
    rfl
  | succ turns ih =>
    by_cases hoff : off < n
    · rcases readDirEntryInBlock_cases (blk s) off with ⟨h₄,h,hr⟩ | ⟨hn,hin,hr⟩ | ⟨h₄,hin,hr⟩
      · refine iff_of_true ⟨s,d,?_⟩ (.unused h₄ h)
        rw [scanEntries,if_pos hoff,hr,bind_ok (inBounds_some _ d)]
        rfl
      · have h₈ : off+8 ≤ n := by
          unfold EntryIn at hin
          omega
        by_cases hz : (entryAt (blk s) off).recLen = 0
        · refine iff_of_false (scanEntries_stuck hb hs hoff hn hz) fun hsafe => ?_
          cases hsafe with
          | done h => omega
          | unused _ h => exact hn h
          | last _ _ h => cases h
          | next _ _ _ h _ => omega
        · obtain ⟨s₁,d₁,hrun,hblk⟩ := hb.ends count off s d hs h₈
          rw [scanEntries_turn hoff hr hrun,ih (by rw [hblk,hb.size,hs]) (by omega),hblk]
          constructor
          · exact ScanSafe.next hn hin rfl (by omega)
          · intro hsafe
            cases hsafe with
            | done h => omega
            | unused _ h => exact absurd h hn
            | last _ _ h => cases h
            | next _ _ _ _ h => exact h
      · refine iff_of_false ?_ fun hsafe => ?_
        · rintro ⟨s',d',h⟩
          rw [scanEntries,if_pos hoff,hr,bind_error (inBounds_none d)] at h
          cases h
        · cases hsafe with
          | done h => omega
          | unused h h' => exact h₄ ⟨h,h'⟩
          | last _ h _ => exact hin h
          | next _ h _ _ _ => exact hin h
    · refine iff_of_true ⟨s,d,?_⟩ (.done (by omega))
      rw [scanEntries,if_neg hoff]
      rfl

end Loops

/-- A body that does not touch the block. -/
def keep (_count _offset : ℕ) (_entry : DirEntry) (b : Buf) : Buf := b

theorem BodyEnds.const {σ : Type} {b : Buf} {body : ℕ → ℕ → DirEntry → σ → Fsck σ}
    (h : ∀ count off e s d, ∃ s' d', (body count off e s).run d = .ok s' d') :
    BodyEnds b.size (fun _ => b) body keep where
  ends count off s d _ _ := by
    obtain ⟨s',d',hr⟩ := h count off (entryAt b off) s d
    exact ⟨s',d',hr,rfl⟩
  size _ _ _ := rfl
  stays _ _ _ _ hn hz := ⟨hn,hz⟩

/-- What `pass1` makes of a block at an entry: the first two entries of type directory are set to
the directory itself and to its parent. -/
def dotFixed (parent_inode_num inode_num count offset : ℕ) (entry : DirEntry) (b : Buf) : Buf :=
  if dirIsDir entry then
    if count = 0 then if entry.inode ≠ inode_num then b.putNum offset inode_num 4 else b
    else if count = 1 then
      if entry.inode ≠ parent_inode_num then b.putNum offset parent_inode_num 4 else b
    else b
  else b

@[simp] theorem dotFixed_size (p x count off : ℕ) (e : DirEntry) (b : Buf) :
    (dotFixed p x count off e b).size = b.size := by
  unfold dotFixed
  split_ifs <;> simp

section Pass1

variable {g : Globals} {visit : ℕ → ℕ → Fsck Unit} {p x : ℕ}

theorem write_ends {src : Buf} (hs : src.size = g.blockSize) (b : ℕ) (d : Device) :
    ∃ d', (g.write b src 0).run d = .ok () d' := by
  have hw : src.window 0 (sectorSizeBytes*(g.blockSize/sectorSizeBytes)) =
      some (src.slice 0 (sectorSizeBytes*(g.blockSize/sectorSizeBytes))) := by
    refine Buf.window_eq ?_
    have := Nat.mul_div_le g.blockSize sectorSizeBytes
    omega
  simp [Globals.write,writeBlock,writeSectors,hw]

theorem pass1Corrector_ends {b : Buf} (hs : b.size = g.blockSize) {off : ℕ} (hoff : off+4 ≤ b.size)
    (block_id v : ℕ) (d : Device) :
    ∃ d', (pass1Corrector g b block_id off v).run d = .ok (b.putNum off v 4) d' := by
  obtain ⟨d',hw⟩ := write_ends (g := g) (by rw [Buf.putNum_size,hs] : (b.putNum off v 4).size = _) block_id d
  refine ⟨d',?_⟩
  unfold pass1Corrector
  rw [writeNumberIntoBlock_eq hoff,bind_ok (inBounds_some _ d),bind_ok hw]
  rfl

theorem pass1Entry_ends (hv : ∀ p x d, ∃ d', (visit p x).run d = .ok () d') {b : Buf}
    (hs : b.size = g.blockSize) {off : ℕ} (hoff : off+4 ≤ b.size) (block_id count : ℕ) (e : DirEntry)
    (d : Device) : ∃ d', (pass1Entry g visit block_id p x count off e b).run d =
      .ok (dotFixed p x count off e b) d' := by
  have hfix : ∀ v ev, ∃ d', (do
      print ev
      pass1Corrector g b block_id off v : Fsck Buf).run d = .ok (b.putNum off v 4) d' := fun v ev => by
    obtain ⟨d',hc⟩ := pass1Corrector_ends hs hoff block_id v { d with out := d.out ++ [ev] }
    exact ⟨d',by rw [bind_ok (print_run ev d),hc]⟩
  unfold pass1Entry dotFixed
  split
  · split
    · split
      · exact hfix _ _
      · exact ⟨d,rfl⟩
    · split
      · split
        · exact hfix _ _
        · exact ⟨d,rfl⟩
      · obtain ⟨d',h⟩ := hv x e.inode d
        exact ⟨d',by rw [bind_ok h]; rfl⟩
  · exact ⟨d,rfl⟩

theorem pass1Entry_bodyEnds (hp : 0 < p ∧ p < 2^32) (hx : 0 < x ∧ x < 2^32) (block_id : ℕ)
    (hv : ∀ p x d, ∃ d', (visit p x).run d = .ok () d') :
    BodyEnds g.blockSize id (pass1Entry g visit block_id p x) (dotFixed p x) where
  ends count off s d hs hoff := by
    have hs' : s.size = g.blockSize := hs
    have hin : off+4 ≤ s.size := by omega
    obtain ⟨d',h⟩ := @pass1Entry_ends g visit p x hv s hs' off hin block_id count (entryAt s off) d
    exact ⟨_,d',h,rfl⟩
  size count off b := dotFixed_size _ _ _ _ _ _
  stays count off b hoff hn hz := by
    have hput : ∀ v, 0 < v ∧ v < 2^32 → num (b.putNum off v 4).byte off 4 ≠ 0 ∧
        (entryAt (b.putNum off v 4) off).recLen = 0 := by
      intro v hv
      refine ⟨?_,?_⟩
      · rw [Buf.num_putNum (by omega),Nat.mod_eq_of_lt (by norm_num; exact hv.2)]
        omega
      · exact (Buf.num_putNum_disjoint (by omega)).trans hz
    unfold dotFixed
    split_ifs
    · exact hput x hx
    · exact ⟨hn,hz⟩
    · exact hput p hp
    · exact ⟨hn,hz⟩
    · exact ⟨hn,hz⟩
    · exact ⟨hn,hz⟩

end Pass1

theorem findName_stuck {b : Buf} {name : List Byte} {off : ℕ} (hoff : off < b.size)
    (hn : num b.byte off 4 ≠ 0) (hname : (entryAt b off).name ≠ name)
    (hz : (entryAt b off).recLen = 0) (turns : ℕ) (d : Device) :
    ¬ ∃ r d', (findName b.size b name turns off).run d = .ok r d' := by
  induction turns with
  | zero =>
    rintro ⟨r,d',h⟩
    rw [findName,if_pos hoff] at h
    cases h
  | succ turns ih =>
    rw [findName,if_pos hoff]
    rcases readDirEntryInBlock_cases b off with ⟨_,h,_⟩ | ⟨_,_,hr⟩ | ⟨_,_,hr⟩
    · exact absurd h hn
    · rw [hr,bind_ok (inBounds_some _ d)]
      dsimp only
      rw [if_neg hname,hz,Nat.add_zero]
      exact ih
    · rintro ⟨r,d',h⟩
      rw [hr,bind_error (inBounds_none d)] at h
      cases h

theorem findName_ends_iff {b : Buf} {name : List Byte} {turns off : ℕ} (count : ℕ) {d : Device}
    (ht : b.size ≤ turns+off) :
    (∃ r d', (findName b.size b name turns off).run d = .ok r d') ↔
      ScanSafe (fun e => e.name == name) keep count off b := by
  induction turns generalizing off count with
  | zero =>
    refine iff_of_true ⟨none,d,?_⟩ (.done (by omega))
    rw [findName,if_neg (by omega)]
    rfl
  | succ turns ih =>
    by_cases hoff : off < b.size
    · rcases readDirEntryInBlock_cases b off with ⟨h₄,h,hr⟩ | ⟨hn,hin,hr⟩ | ⟨h₄,hin,hr⟩
      · refine iff_of_true ⟨none,d,?_⟩ (.unused h₄ h)
        rw [findName,if_pos hoff,hr,bind_ok (inBounds_some _ d)]
        rfl
      · by_cases hname : (entryAt b off).name = name
        · refine iff_of_true ?_ (.last hn hin (by simpa using hname))
          rw [findName,if_pos hoff,hr,bind_ok (inBounds_some _ d)]
          dsimp only
          rw [if_pos hname]
          exact ⟨_,d,rfl⟩
        · by_cases hz : (entryAt b off).recLen = 0
          · refine iff_of_false (findName_stuck hoff hn hname hz _ d) fun hsafe => ?_
            cases hsafe with
            | done h => omega
            | unused _ h => exact hn h
            | last _ _ h => exact hname (by simpa using h)
            | next _ _ _ h _ => omega
          · rw [findName,if_pos hoff,hr,bind_ok (inBounds_some _ d)]
            dsimp only
            rw [if_neg hname,ih (count+1) (by omega)]
            constructor
            · exact ScanSafe.next hn hin (by simpa using hname) (by omega)
            · intro hsafe
              cases hsafe with
              | done h => omega
              | unused _ h => exact absurd h hn
              | last _ _ h => exact absurd (by simpa using h) hname
              | next _ _ _ _ h => exact h
      · refine iff_of_false ?_ fun hsafe => ?_
        · rintro ⟨r,d',h⟩
          rw [findName,if_pos hoff,hr,bind_error (inBounds_none d)] at h
          cases h
        · cases hsafe with
          | done h => omega
          | unused h h' => exact h₄ ⟨h,h'⟩
          | last _ h _ => exact hin h
          | next _ h _ _ _ => exact hin h
    · refine iff_of_true ⟨none,d,?_⟩ (.done (by omega))
      rw [findName,if_neg hoff]
      rfl

theorem findLastEntry_ends_iff {b : Buf} {turns off : ℕ} (count : ℕ) (len : ℤ)
    (entry : Option DirEntry) (d : Device) :
    (∃ r d', (findLastEntry b.size b turns off len entry).run d = .ok r d') ↔
      ∃ s' d', (scanEntries b.size (fun _ => b) (fun _ _ _ => pure) turns off count ()).run d =
        .ok s' d' := by
  induction turns generalizing off count len entry with
  | zero =>
    rw [findLastEntry,scanEntries]
    split
    · exact iff_of_false (by rintro ⟨_,_,h⟩; cases h) (by rintro ⟨_,_,h⟩; cases h)
    · exact iff_of_true ⟨_,d,rfl⟩ ⟨(),d,rfl⟩
  | succ turns ih =>
    rw [findLastEntry,scanEntries]
    split
    · cases hr : readDirEntryInBlock b off with
      | none => exact iff_of_false (by rintro ⟨_,_,h⟩; cases h) (by rintro ⟨_,_,h⟩; cases h)
      | some r =>
        cases r with
        | none => exact iff_of_true ⟨_,d,rfl⟩ ⟨(),d,rfl⟩
        | some e => exact ih (count+1) e.recLen (some e)
    · exact iff_of_true ⟨_,d,rfl⟩ ⟨(),d,rfl⟩

theorem findLastEntry_entry {n turns off : ℕ} {b : Buf} {len : ℤ} {entry : DirEntry} {d d' : Device}
    {r : ℕ × ℤ × Option DirEntry}
    (h : (findLastEntry n b turns off len (some entry)).run d = .ok r d') :
    ∃ e, r.2.2 = some e ∧ d' = d := by
  induction turns generalizing off len entry with
  | zero =>
    rw [findLastEntry] at h
    split at h
    · cases h
    · cases h
      exact ⟨entry,rfl,rfl⟩
  | succ turns ih =>
    rw [findLastEntry] at h
    split at h
    · cases hr : readDirEntryInBlock b off with
      | none =>
        rw [hr] at h
        cases h
      | some o =>
        rw [hr] at h
        cases o with
        | none =>
          cases h
          exact ⟨entry,rfl,rfl⟩
        | some e => exact ih h
    · cases h
      exact ⟨entry,rfl,rfl⟩

theorem writeNewEntry_ends {g : Globals} {new : DirEntry} {b : Buf} {block_id q : ℕ}
    (hs : b.size = g.blockSize) (hnew : dirEntryPrefixLen+new.name.length ≤ new.recLen)
    (hq : q+new.recLen < g.blockSize) (d : Device) :
    ∃ d', (writeNewEntry g new b block_id q).run d = .ok () d' := by
  simp only [dirEntryPrefixLen] at hnew
  unfold writeNewEntry
  rw [writeNumberIntoBlock_eq (by omega),bind_ok (inBounds_some _ d)]
  dsimp only
  rw [writeNumberIntoBlock_eq (by simp; omega),bind_ok (inBounds_some _ d),
    Buf.store_eq _ (by simp; omega),bind_ok (inBounds_some _ d),Buf.store_eq _ (by simp; omega),
    bind_ok (inBounds_some _ d),storeBytes_eq (by simp; omega),bind_ok (inBounds_some _ d)]
  exact write_ends (by simpa using hs) block_id d

theorem placeEntry_ends_iff {g : Globals} {new e : DirEntry} {b : Buf} {block_id : ℕ} {d : Device}
    (hb : block_id ≠ 0) (hs : b.size = g.blockSize) (hr : (g.block block_id).run d = .ok b d)
    (hnew : dirEntryPrefixLen+new.name.length ≤ new.recLen) :
    (∃ d', (placeEntry g new [block_id] (some e)).run d = .ok () d') ↔
      ∃ s' d', (scanEntries b.size (fun _ => b) (fun _ _ _ => pure) b.size 0 0 ()).run d =
        .ok s' d' := by
  rw [← findLastEntry_ends_iff 0 0 (some e) d,placeEntry,if_neg hb,bind_ok hr,← hs]
  cases hl : (findLastEntry b.size b b.size 0 0 (some e)).run d with
  | error f d₁ =>
    rw [bind_error hl]
    exact iff_of_false (by rintro ⟨_,h⟩; cases h) (by rintro ⟨_,_,h⟩; cases h)
  | ok r d₁ =>
    obtain ⟨e₁,he₁,rfl⟩ := findLastEntry_entry hl
    obtain ⟨off,len,entry⟩ := r
    obtain rfl : entry = some e₁ := he₁
    refine iff_of_true ?_ ⟨_,_,rfl⟩
    rw [bind_ok hl]
    dsimp only
    split
    · rename_i hroom
      have hpad := le_padTo4Bytes (dirEntryPrefixLen+e₁.nameLen)
      have h₈ : 8 ≤ padTo4Bytes (dirEntryPrefixLen+e₁.nameLen) :=
        le_trans (by rw [show dirEntryPrefixLen = 8 from rfl]; omega) hpad
      rw [writeNumberIntoBlock_eq (by omega),bind_ok (inBounds_some _ d₁)]
      exact writeNewEntry_ends (by simpa using hs) hnew (by omega) d₁
    · exact ⟨d₁,rfl⟩

/-- Each of the five loops ends inside the block exactly when its scan is safe. The walkers
`directory_traversor` and `get_true_block_bitmap` scan a block they do not change, whatever they do
with an entry; `pass1` scans the block as it corrects it, whatever its calls of itself do;
`search_dir_entry` stops at the name, and `add_to_lost_found` goes on to write. -/
theorem block_scans_end_iff (b : Buf) :
    ((∀ (σ : Type) (body : ℕ → ℕ → DirEntry → σ → Fsck σ),
        (∀ count off e s d, ∃ s' d', (body count off e s).run d = .ok s' d') →
        ∀ s d, ∃ s' d', (scanEntries b.size (fun _ => b) body b.size 0 0 s).run d = .ok s' d') ↔
      ScanSafe (fun _ => false) keep 0 0 b) ∧
    (∀ (g : Globals) (block_id p x : ℕ), b.size = g.blockSize → 0 < p ∧ p < 2^32 → 0 < x ∧ x < 2^32 →
      ((∀ visit : ℕ → ℕ → Fsck Unit, (∀ p x d, ∃ d', (visit p x).run d = .ok () d') →
        ∀ d, ∃ b' d', (scanEntries g.blockSize id (pass1Entry g visit block_id p x) g.blockSize 0 0
          b).run d = .ok b' d') ↔ ScanSafe (fun _ => false) (dotFixed p x) 0 0 b)) ∧
    (∀ (name : List Byte) (d : Device),
      (∃ r d', (findName b.size b name b.size 0).run d = .ok r d') ↔
        ScanSafe (fun e => e.name == name) keep 0 0 b) ∧
    ∀ (g : Globals) (block_id : ℕ) (new e : DirEntry) (d : Device), b.size = g.blockSize →
      block_id ≠ 0 → (g.block block_id).run d = .ok b d →
      dirEntryPrefixLen+new.name.length ≤ new.recLen →
      ((∃ d', (placeEntry g new [block_id] (some e)).run d = .ok () d') ↔
        ScanSafe (fun _ => false) keep 0 0 b) := by
  have hpure : BodyEnds b.size (fun _ : Unit => b) (fun _ _ _ => pure) keep :=
    .const fun _ _ _ s d => ⟨s,d,rfl⟩
  have hconst : ∀ d, (∃ s' d', (scanEntries b.size (fun _ => b) (fun _ _ _ => pure) b.size 0 0 ()).run d =
      .ok s' d') ↔ ScanSafe (fun _ => false) keep 0 0 b := fun d =>
    scanEntries_ends_iff hpure rfl (by omega)
  refine ⟨⟨fun h => ?_,fun h σ body hbody s d => ?_⟩,fun g block_id p x hs hp hx => ⟨fun h => ?_,fun h visit hv d => ?_⟩,
    fun name d => findName_ends_iff 0 (by omega),fun g block_id new e d hs hb hr hnew => ?_⟩
  · exact (hconst ⟨b,[]⟩).mp (h Unit (fun _ _ _ => pure) (fun _ _ _ s d => ⟨s,d,rfl⟩) () _)
  · exact (scanEntries_ends_iff (.const hbody) rfl (by omega)).mpr h
  · have hv : ∀ (p x : ℕ) (d : Device), ∃ d', (pure () : Fsck Unit).run d = .ok () d' :=
      fun _ _ d => ⟨d,rfl⟩
    exact (scanEntries_ends_iff (pass1Entry_bodyEnds hp hx block_id hv) hs (by omega)).mp
      (h (fun _ _ => pure ()) hv ⟨b,[]⟩)
  · exact (scanEntries_ends_iff (pass1Entry_bodyEnds hp hx block_id hv) hs (by omega)).mpr h
  · rw [placeEntry_ends_iff hb hs hr hnew]
    exact hconst d

/-- A computed test for a scan that does not change the block. -/
def scanCheck (stop : DirEntry → Bool) (b : Buf) : (turns off : ℕ) → Bool
  | 0, off => decide (b.size ≤ off)
  | turns+1, off =>
    decide (b.size ≤ off) || decide (off+4 ≤ b.size ∧ num b.byte off 4 = 0) ||
      decide (num b.byte off 4 ≠ 0 ∧ off+8+nameRead b (off+8) (entryAt b off).nameLen ≤ b.size) &&
        (stop (entryAt b off) || decide (0 < (entryAt b off).recLen) &&
          scanCheck stop b turns (off+(entryAt b off).recLen))

theorem scanSafe_of_check {stop : DirEntry → Bool} {b : Buf} {turns off count : ℕ}
    (h : scanCheck stop b turns off = true) : ScanSafe stop keep count off b := by
  induction turns generalizing off count with
  | zero => exact .done (by simpa [scanCheck] using h)
  | succ turns ih =>
    simp only [scanCheck,Bool.or_eq_true,Bool.and_eq_true,decide_eq_true_eq] at h
    rcases h with (h | h) | ⟨h,hs | hs⟩
    · exact .done h
    · exact .unused h.1 h.2
    · exact .last h.1 h.2 hs
    · cases hstop : stop (entryAt b off) with
      | true => exact .last h.1 h.2 hstop
      | false => exact .next h.1 h.2 hstop hs.1 (ih hs.2)

theorem block_scans_end_iff_tail :
    (∃ s' d', (scanEntries 1024 (fun _ => tailBlock) record 1024 0 0 []).run ⟨Buf.zero 0,[]⟩ =
      .ok s' d') ∧
    ∃ r d', (findName 1024 tailBlock [97] 1024 0).run ⟨Buf.zero 0,[]⟩ = .ok r d' :=
  ⟨(block_scans_end_iff tailBlock).1.mpr
      (@scanSafe_of_check _ _ 1024 _ _ (by decide +kernel)) _ record
      (fun _ off e s d => ⟨s ++ [(off,e)],d,rfl⟩) [] _,
    ((block_scans_end_iff tailBlock).2.2.1 [97] _).mpr
      (@scanSafe_of_check _ _ 1024 _ _ (by decide +kernel))⟩

/-- An entry of length 0. -/
def zeroBlock : Buf := entryBlock [entryBytes 2 0 2 [46]]

/-- An entry whose length leads to the last two bytes of the block. -/
def cutBlock : Buf := entryBlock [entryBytes 2 1022 2 [46]]

theorem scanEntries_zero_len {b : Buf} {off : ℕ} (hoff : off < b.size) (hn : num b.byte off 4 ≠ 0)
    (hin : EntryIn b off) (hz : (entryAt b off).recLen = 0) (turns count : ℕ) (d : Device) :
    (scanEntries b.size (fun _ => b) (fun _ _ _ => pure) turns off count ()).run d =
      .error .outOfFuel d := by
  induction turns generalizing count with
  | zero =>
    rw [scanEntries,if_pos hoff]
    rfl
  | succ turns ih =>
    rcases readDirEntryInBlock_cases b off with ⟨_,h,_⟩ | ⟨_,_,hr⟩ | ⟨_,h,_⟩
    · exact absurd h hn
    · rw [scanEntries,if_pos hoff,hr,bind_ok (inBounds_some _ d)]
      dsimp only
      rw [hz,Nat.add_zero]
      exact ih (count+1)
    · exact absurd hin h

/-- On the first of these blocks the loop never ends, on the second it reads past the block. -/
theorem block_scans_fail :
    (∃ d', (scanEntries zeroBlock.size (fun _ => zeroBlock) (fun _ _ _ => pure) zeroBlock.size 0 0
      ()).run ⟨Buf.zero 0,[]⟩ = .error .outOfFuel d') ∧
    ∃ d', (scanEntries cutBlock.size (fun _ => cutBlock) (fun _ _ _ => pure) cutBlock.size 0 0
      ()).run ⟨Buf.zero 0,[]⟩ = .error .outOfBounds d' :=
  ⟨⟨_,scanEntries_zero_len (by decide) (by decide +kernel)
    (show _ ≤ zeroBlock.size by decide +kernel) (by decide +kernel) _ 0 _⟩,
    exists_of_stopsWith (by decide +kernel)⟩

end MyFsck
