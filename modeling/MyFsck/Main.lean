import MyFsck.Reports
import MyFsck.Numeral
import MyFsck.Getopt

/-! A process of the program (`myfsck.c`): its arguments, the file they name, what it prints, and its exit
status; and `print_partition_info` of `partitionEntry.c`. -/
namespace MyFsck

open ByteBuffer ErrorState Numeral Getopt

/-- What processes leave to each other: the files, the lines of `print_partition_info` and of `usage`, and
the lines of the passes. -/
structure World where
  files : List Char → Option Buf
  text : List Char
  out : List Event

abbrev Process := EStateM Fault World

def printText (cs : List Char) : Process Unit := modify fun w => { w with text := w.text++cs }

/-- The world behind a computation on the file at `path` that has left `d`. -/
def World.leave (w : World) (path : List Char) (d : Device) : World :=
  { w with files := Function.update w.files path (some d.image), out := d.out }

/-- A computation on the open file at `path`, which holds `image`. -/
def onDevice {α : Type} (path : List Char) (image : Buf) (x : Fsck α) : Process α := do
  let w ← get
  match x.run ⟨image,w.out⟩ with
  | .ok a d => do
    set (w.leave path d)
    pure a
  | .error f d => do
    set (w.leave path d)
    throw f

/-- What a process finds where it has set nothing: on the stack behind a sector it has read, and in place
of the value of a call for a partition that returns none. -/
structure Memory where
  stack : ℕ → Byte
  left : ℤ → ℤ

/-- `"0x%02X %d %d\n"`, of numbers that are unsigned. -/
def entryLine (e : PartitionEntry) : List Char :=
  ['0','x']++hex2 e.type++[' ']++ofInt (asInt e.start)++[' ']++ofInt (asInt e.length)++['\n']

/-- The value returned and the line printed. -/
def printPartitionInfo (stack : ℕ → Byte) (fuel : ℕ) (old : PartitionEntry) (partition_num : ℤ) :
    Fsck (ℤ × List Char) := do
  let partition_entry ← readPartitionInfo stack fuel old partition_num
  if partition_entry.type = invalidType then pure (-1,['-','1','\n'])
  else pure (0,entryLine partition_entry)

def usage (progname : List Char) : List Char :=
  "Usage: ".toList++progname++" [options]\n".toList++"Program Options:\n".toList++
    "  -p <partition number>    partition to read\n".toList++
    "  -i <disk image>          path to disk image\n".toList++
    "  -h                       help information".toList

def optstring : List Char := ['p',':','f',':','i',':','?','h']

structure Settings where
  printPartitionNum : ℤ
  correctPartitionNum : ℤ
  imagePath : Option (List Char)
  help : Bool

/-- The `switch` of `main`. -/
def Settings.set (s : Settings) : Found → Option Settings
  | ('p',some optarg) => (atoi optarg).map fun n => { s with printPartitionNum := n }
  | ('f',some optarg) => (atoi optarg).map fun n => { s with correctPartitionNum := n }
  | ('i',some optarg) => some { s with imagePath := some optarg }
  | ('h',_) => some { s with help := true }
  | _ => some s

/-- The variables of `main` behind its loop; `none` if a number is outside the range of `atoi`. -/
def settings (argv : List (List Char)) : Option Settings :=
  (scan optstring argv.tail).1.foldlM Settings.set ⟨-1,-1,none,false⟩

/-- `optind` behind the loop: the operands have been moved to the end. -/
def optind (argv : List (List Char)) : ℕ := argv.length-(scan optstring argv.tail).2.length

/-- `main` behind its call of `open`. -/
def mainOpen (m : Memory) (fuel turns : ℕ) (s : Settings) (image_path : List Char) (image : Buf) :
    Process ℤ :=
  if s.printPartitionNum ≠ -1 then do
    let r ← onDevice image_path image (printPartitionInfo m.stack fuel ⟨0,0,0⟩ s.printPartitionNum)
    printText r.2
    pure r.1
  else if s.correctPartitionNum ≠ -1 then do
    let _ ← onDevice image_path image
      (correctPartition m.stack fuel m.left turns ⟨0,0,0⟩ s.correctPartitionNum)
    pure 0
  else pure 0

/-- The value is the exit status. -/
def main (m : Memory) (fuel turns : ℕ) (argv : List (List Char)) : Process ℤ :=
  match settings argv with
  | none => throw .undefined
  | some s => do
    printText (if s.help = true ∨ optind argv ≠ 5 then usage (argv.headD []) else [])
    match s.imagePath with
    | none => throw .undefined
    | some image_path =>
      match (← get).files image_path with
      | none => pure (-1)
      | some image => mainOpen m fuel turns s image_path image

/-- What such a line says. -/
def readEntry : List Char → Option PartitionEntry
  | '0' :: 'x' :: a :: b :: ' ' :: cs => some ⟨16*hexValue a+hexValue b,(strtol cs%2^32).toNat,
      (strtol (cs.dropWhile (· ≠ ' '))%2^32).toNat⟩
  | _ => none

theorem readEntry_entryLine {e : PartitionEntry} (ht : e.type < 256) (hs : e.start < 2^32)
    (hl : e.length < 2^32) : readEntry (entryLine e) = some e := by
  have hrest : (ofInt (asInt e.start)++([' ']++(ofInt (asInt e.length)++['\n']))).dropWhile (· ≠ ' ') =
      [' ']++(ofInt (asInt e.length)++['\n']) := by
    rw [List.dropWhile_append_of_pos fun c hc => by simpa using ofInt_no_space _ c hc,List.singleton_append,
      List.dropWhile_cons_of_neg (by decide)]
  have hstart : strtol (ofInt (asInt e.start)++([' ']++(ofInt (asInt e.length)++['\n']))) = asInt e.start :=
    strtol_ofInt _ (by simp)
  have hlength : strtol (ofInt (asInt e.length)++['\n']) = asInt e.length := strtol_ofInt _ (by simp)
  have hline : entryLine e = ['0','x',hexDigit (e.type/16),hexDigit (e.type%16),' ']++
      (ofInt (asInt e.start)++([' ']++(ofInt (asInt e.length)++['\n']))) := by
    simp [entryLine,hex2]
  rw [hline,List.cons_append,List.cons_append,List.cons_append,List.cons_append,List.singleton_append,readEntry,
    hrest,hstart,List.singleton_append,strtol_space,hlength,asInt_mod hs,asInt_mod hl,hex2_value ht]

example : entryLine ⟨0x83,63,48132⟩ = ['0','x','8','3',' ','6','3',' ','4','8','1','3','2','\n'] := by decide

end MyFsck
