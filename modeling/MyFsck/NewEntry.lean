import MyFsck.LostFound
import Mathlib.Data.Nat.Digits.Lemmas
import Mathlib.Order.Bounds.Defs

/-! The entries that `create_new_entry` makes: their names, and what is read back of them. -/
namespace MyFsck

open ByteBuffer ErrorState

def asciiDigit (k : ℕ) : Byte := BitVec.ofNat 8 (k+48)

/-- The decimal numeral of `n`, without leading zeros. -/
def decimal (n : ℕ) : List Byte := ((Nat.digits 10 n).map asciiDigit).reverse

/-- The number that a string of digits stands for. -/
def decimalValue (cs : List Byte) : ℕ := cs.foldl (fun v c => 10*v+(c.toNat-48)) 0

theorem asciiDigit_toNat {k : ℕ} (h : k < 10) : (asciiDigit k).toNat = k+48 := by
  simp only [asciiDigit,BitVec.toNat_ofNat]
  omega

theorem foldr_asciiDigit {l : List ℕ} (h : ∀ k ∈ l, k < 10) :
    (l.map asciiDigit).foldr (fun c v => 10*v+(c.toNat-48)) 0 = Nat.ofDigits 10 l := by
  induction l with
  | nil => rfl
  | cons k l ih =>
    have hk : k < 10 := h k (by simp)
    rw [List.map_cons,List.foldr_cons,ih fun j hj => h j (by simp [hj]),asciiDigit_toNat hk,
      Nat.ofDigits_cons]
    omega

theorem decimalValue_decimal (n : ℕ) : decimalValue (decimal n) = n := by
  have hlt : ∀ k ∈ Nat.digits 10 n, k < 10 := fun k hk => Nat.digits_lt_base (by norm_num) hk
  rw [decimalValue,decimal,List.foldl_reverse,foldr_asciiDigit hlt,Nat.ofDigits_digits]

theorem decimal_injective : Function.Injective decimal :=
  Function.LeftInverse.injective decimalValue_decimal

theorem decimal_head {n : ℕ} (h : n ≠ 0) : (decimal n).head? ≠ some (asciiDigit 0) := by
  have hne : Nat.digits 10 n ≠ [] := Nat.digits_ne_nil_iff_ne_zero.mpr h
  have hlast := Nat.getLast_digit_ne_zero 10 h
  have hlt : (Nat.digits 10 n).getLast hne < 10 :=
    Nat.digits_lt_base (by norm_num) (List.getLast_mem hne)
  rw [decimal,List.head?_reverse,List.getLast?_map,List.getLast?_eq_some_getLast hne,Option.map_some]
  intro heq
  have hval := congrArg BitVec.toNat (Option.some.inj heq)
  rw [asciiDigit_toNat hlt,asciiDigit_toNat (by norm_num)] at hval
  omega

theorem nameDigits_eq {k n : ℕ} (h : n < 10^k) : nameDigits k n = (Nat.digits 10 n).map asciiDigit := by
  induction k generalizing n with
  | zero =>
    obtain rfl : n = 0 := by simpa using h
    rfl
  | succ k ih =>
    rw [nameDigits]
    split
    · rename_i hn
      rw [hn,Nat.digits_zero,List.map_nil]
    · have hrest : n/10 < 10^k := by
        rw [Nat.pow_succ] at h
        omega
      rw [Nat.digits_def' (by norm_num) (by omega),List.map_cons,ih hrest]
      rfl

theorem createNewEntry_ok {g : Globals} {n : ℕ} (h1 : 1 ≤ n) (hn : n < 2^32) {d d' : Device}
    {e : DirEntry} (h : (createNewEntry g n).run d = .ok e d') :
    EntryFits e ∧ e.inode = n ∧ e.name = decimal n := by
  unfold createNewEntry at h
  obtain ⟨inode,t,-,h⟩ := bind_ok_inv h
  simp only [List.length_reverse] at h
  cases h
  have hname : (nameDigits 10 n).reverse = decimal n := by
    rw [nameDigits_eq (by omega)]
    rfl
  refine ⟨entryFits_named h1 hn ?_,rfl,hname⟩
  split <;> decide

theorem padTo4Bytes_isLeast (n : ℕ) : IsLeast {r | 4 ∣ r ∧ n ≤ r} (padTo4Bytes n) := by
  refine ⟨⟨Nat.dvd_of_mod_eq_zero (padTo4Bytes_mod n),le_padTo4Bytes n⟩,fun r hr => ?_⟩
  obtain ⟨⟨q,rfl⟩,hle⟩ := hr
  have hlt := padTo4Bytes_lt n
  have hmod := padTo4Bytes_mod n
  omega

theorem empty_run (n : ℕ) (h1 : 1 ≤ n) (hn : n ≤ 16) :
    (createNewEntry (exampleGlobals 16) n).run ⟨Buf.zero 16896,[]⟩ =
      .ok ((exampleGlobals 16).newEntry (Buf.zero 16896) n) ⟨Buf.zero 16896,[]⟩ :=
  createNewEntry_run (by decide) (by decide) h1 hn

section RoundTrip

variable {b : Buf} {q : ℕ} {new : DirEntry}

theorem writeNewEntry_eq {g : Globals} (hnew : EntryFits new) (hs : b.size = g.blockSize)
    (hq : q+9+new.nameLen ≤ g.blockSize) (block_id : ℕ) :
    writeNewEntry g new b block_id q =
      g.write block_id (insertEntry b q (num b.byte q 2) q new) 0 := by
  have hlen := hnew.name_length
  have hb : b.putNum q (num b.byte q 2) 2 = b :=
    Buf.putNum_num (by omega) (Nat.mod_eq_of_lt (num_lt b.byte q 2)).symm
  unfold writeNewEntry insertEntry
  rw [hb,writeNumberIntoBlock_eq (by omega)]
  simp only [inBounds,pure_bind]
  rw [writeNumberIntoBlock_eq (by simp; omega)]
  simp only [pure_bind]
  rw [Buf.store_eq _ (by simp; omega)]
  simp only [pure_bind]
  rw [Buf.store_eq _ (by simp; omega)]
  simp only [pure_bind]
  rw [storeBytes_eq (by simp; omega)]
  simp only [pure_bind,hs]

/-- What `write_new_entry` put into a block is read back from it. -/
theorem writeNewEntry_readBack (g : Globals) {n : ℕ} (h1 : 1 ≤ n) (hn : n < 2^32) {d d' : Device}
    {e : DirEntry} (h : (createNewEntry g n).run d = .ok e d') {b : Buf} (hb : b.size = g.blockSize)
    (hs : g.blockSize ≤ 65536) {offset : ℕ} (ho : 12 ≤ offset)
    (hfit : offset+8+e.nameLen < g.blockSize) :
    ∃ b', (∀ block_id, writeNewEntry g e b block_id offset = g.write block_id b' 0) ∧
      b'.size = b.size ∧
      readDirEntryInBlock b' offset = some (some { e with recLen := g.blockSize-offset }) ∧
      ∀ i, i < offset ∨ offset+8+e.nameLen < i → b'.byte i = b.byte i := by
  obtain ⟨hfits,-,-⟩ := createNewEntry_ok h1 hn h
  have hlen := hfits.name_length
  have hpos := hfits.inode_pos
  obtain ⟨hentry,hinode⟩ := @entryAt_insertEntry b offset (num b.byte offset 2) offset e hfits
    (by omega) (by omega)
  refine ⟨insertEntry b offset (num b.byte offset 2) offset e,
    writeNewEntry_eq hfits hb (by omega),insertEntry_size,?_,?_⟩
  · rw [readDirEntryInBlock_live (by omega) (by rw [hentry,insertEntry_size]; dsimp only; omega),
      hentry,hb]
  · intro i hi
    exact insertEntry_byte_out (by omega) (by omega)

theorem writeNewEntry_readBack_twelve :
    ∃ b', (∀ block_id, writeNewEntry (exampleGlobals 16)
        ((exampleGlobals 16).newEntry (Buf.zero 16896) 12) (Buf.zero 1024) block_id 1013 =
          (exampleGlobals 16).write block_id b' 0) ∧
      b'.size = (Buf.zero 1024).size ∧
      readDirEntryInBlock b' 1013 =
        some (some { (exampleGlobals 16).newEntry (Buf.zero 16896) 12 with recLen := 1024-1013 }) ∧
      ∀ i, i < 1013 ∨ 1013+8+((exampleGlobals 16).newEntry (Buf.zero 16896) 12).nameLen < i →
        b'.byte i = (Buf.zero 1024).byte i :=
  writeNewEntry_readBack (exampleGlobals 16) (by norm_num) (by norm_num)
    (empty_run 12 (by norm_num) (by norm_num)) rfl (by decide) (by norm_num) (by decide)

end RoundTrip

end MyFsck
