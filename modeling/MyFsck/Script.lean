import MyFsck.Processes
import MyFsck.DiskRestored

/-! Processes that print and processes that correct: the line of the one tells what the other works on, and
a process for all partitions does what a process for each of them does. -/
namespace MyFsck

open ByteBuffer ErrorState Numeral Getopt

/-- How the run `r` of a process that prints and the run `r'` of one that corrects go together, both from
the world `w`, of which the first has printed the text of `w₀` when its image is open. -/
def Told (fuel : ℕ) (path : List Char) (image : Buf) (w w₀ : World)
    (r r' : EStateM.Result Fault World ℤ) : Prop :=
  match r with
  | .ok status w₁ => (w₁.files = w.files ∧ w₁.out = w.out) ∧
      (status = -1 ∧ w₁.text = w₀.text++['-','1','\n'] ∧
          SameEffect r' (.ok 0 w : EStateM.Result Fault World ℤ) ∨
        status = 0 ∧ ∃ e, w₁.text = w₀.text++entryLine e ∧ readEntry (entryLine e) = some e ∧
          SameEffect r' ((onDevice path image (correctEntry fuel e)).run w))
  | .error f w₁ => (w₁.files = w.files ∧ w₁.out = w.out) ∧
      SameEffect r' (.error f w : EStateM.Result Fault World ℤ)

/-- `myfsck -c n -i path`. -/
def callArgs (c : Char) (progname path : List Char) (n : ℤ) : List (List Char) :=
  progname::[(c,some (ofInt n)),('i',some path)].flatMap spell

theorem scan_callArgs {c : Char} (hc : c ≠ '-') (ht : takes optstring c = some true) (progname path : List Char)
    (n : ℤ) : scan optstring (callArgs c progname path n).tail = ([(c,some (ofInt n)),('i',some path)],[]) := by
  refine scan_spells fun o ho => ?_
  rcases List.mem_pair.mp ho with rfl | rfl
  · exact ⟨hc,ht⟩
  · exact ⟨show 'i' ≠ '-' by decide,show takes optstring 'i' = some true by decide⟩

theorem settings_print (progname path : List Char) {n : ℤ} (hn : -2^31 ≤ n ∧ n < 2^31) :
    settings (callArgs 'p' progname path n) = some ⟨n,-1,some path,false⟩ := by
  rw [settings,scan_callArgs (by decide) (by decide)]
  simp [List.foldlM_cons,Settings.set,atoi_ofInt hn]

theorem settings_correct (progname path : List Char) {n : ℤ} (hn : -2^31 ≤ n ∧ n < 2^31) :
    settings (callArgs 'f' progname path n) = some ⟨-1,n,some path,false⟩ := by
  rw [settings,scan_callArgs (by decide) (by decide)]
  simp [List.foldlM_cons,Settings.set,atoi_ofInt hn]

/-- A file `d` with a damaged disk. -/
def damagedWorld : World := ⟨fun path => if path = ['d'] then some damagedDisk else none,[],[]⟩

/-- `for i in …; do myfsck -p i -i path || break; myfsck -f i -i path; done`, from the number `i` on. Each
process has a memory of its own, and the script ends with the first that stops with an error. -/
def eachPartition (ms ms' : ℤ → Memory) (fuel turns : ℕ) (progname path : List Char) :
    ℕ → ℤ → Process Unit
  | 0, _ => throw .outOfFuel
  | k+1, i => do
    let status ← main (ms i) fuel turns (callArgs 'p' progname path i)
    if status = 0 then do
      let _ ← main (ms' i) fuel turns (callArgs 'f' progname path i)
      eachPartition ms ms' fuel turns progname path k (i+1)
    else pure ()

section Each

variable {stack : ℕ → Byte} {left : ℤ → ℤ} {fuel k : ℕ} {i : ℤ} {old e : PartitionEntry} {d d' : Device}

theorem correctAll_missing (h : Missing fuel i d) :
    (correctAll stack fuel left (k+1) i old).run d = .ok [] d := by
  obtain ⟨e,he,hrun⟩ := h stack old
  rw [correctAll,bind_ok (correctOnePartition_missing hrun he)]
  rfl

theorem correctAll_unreadable {f : Fault} (h : Unreadable fuel i d f) :
    (correctAll stack fuel left (k+1) i old).run d = .error f d := by
  rw [correctAll,bind_error (correctOnePartition_stops (h stack old))]

theorem correctAll_error (h : There fuel i d e) {f : Fault} (hr : (correctEntry fuel e).run d = .error f d') :
    (correctAll stack fuel left (k+1) i old).run d = .error f d' := by
  rw [correctAll,bind_error ((correctOnePartition_there (h.found stack old) h.valid).trans (bind_error hr))]

theorem correctAll_ok (hleft : left i ≠ -1) (h : There fuel i d e)
    (hr : (correctEntry fuel e).run d = .ok () d') :
    ∃ es, (correctAll stack fuel left (k+1) i old).run d =
      (correctAll stack fuel left k (i+1) e >>= fun rest => pure (es++rest)).run d' := by
  have hvalue : ((if e.type = ext2Fs then none else some 0 : Option ℤ).getD (left i)) ≠ -1 := by
    split
    · exact hleft
    · exact (by decide : (0 : ℤ) ≠ -1)
  have hone := (correctOnePartition_there (h.found stack old) h.valid).trans (bind_ok hr)
  rw [correctAll,bind_ok hone]
  dsimp only
  rw [if_neg hvalue]
  exact ⟨_,rfl⟩

end Each

theorem SameEffect.ok_inv {α β : Type} {r : EStateM.Result Fault World α} {b : β} {w : World}
    (h : SameEffect r (.ok b w)) : ∃ a w', r = .ok a w' ∧ w'.files = w.files ∧ w'.out = w.out := by
  cases r with
  | ok a w' => exact ⟨a,w',rfl,h.1,h.2⟩
  | error f w' => exact absurd h id

theorem SameEffect.error_inv {α β : Type} {r : EStateM.Result Fault World α} {f : Fault} {w : World}
    (h : SameEffect r (.error f w : EStateM.Result Fault World β)) :
    ∃ w', r = .error f w' ∧ w'.files = w.files ∧ w'.out = w.out := by
  cases r with
  | ok a w' => exact absurd h id
  | error f' w' =>
    obtain ⟨rfl,h⟩ := h
    exact ⟨w',rfl,h.1,h.2⟩

theorem onDevice_rest {α : Type} {path : List Char} {image : Buf} {w : World} {x y : Fsck α} {h : α → α}
    {d : Device} (hx : x.run ⟨image,w.out⟩ = (y >>= fun a => pure (h a)).run d) :
    SameEffect ((onDevice path image x).run w) ((onDevice path d.image y).run (w.leave path d)) := by
  cases hy : y.run d with
  | ok a d' =>
    rw [onDevice_ok (hx.trans (bind_ok hy)),onDevice_ok (w := w.leave path d) hy,leave_leave]
    exact ⟨rfl,rfl⟩
  | error f d' =>
    rw [onDevice_error (hx.trans (bind_error hy)),onDevice_error (w := w.leave path d) hy,leave_leave]
    exact ⟨rfl,rfl,rfl⟩

theorem correctAll_each {m : Memory} (hleft : ∀ i, m.left i ≠ -1) (ms ms' : ℤ → Memory) (fuel turns : ℕ)
    (progname path : List Char) {k : ℕ} {i : ℤ} (hi : 1 ≤ i) (hk : i+k < 2^31) {old : PartitionEntry}
    {w w' : World} {image : Buf} (hfile : w.files path = some image) (hfiles : w'.files = w.files)
    (hout : w'.out = w.out) : SameEffect
      ((onDevice path image (correctAll m.stack fuel m.left k i old)).run w)
      ((eachPartition ms ms' fuel turns progname path k i).run w') := by
  induction k generalizing i old w w' image with
  | zero =>
    have hstop : (correctAll m.stack fuel m.left 0 i old).run ⟨image,w.out⟩ =
      .error .outOfFuel ⟨image,w.out⟩ := rfl
    rw [onDevice_error hstop,leave_same hfile]
    exact ⟨rfl,hfiles.symm,hout.symm⟩
  | succ k ih =>
    have hrange : -2^31 ≤ i ∧ i < 2^31 := by
      push_cast at hk
      omega
    have hs := settings_print progname path hrange
    have hs' := settings_correct progname path hrange
    have hfile' : w'.files path = some image := by rw [hfiles,hfile]
    have hne : i ≠ -1 := by omega
    have h0 : i ≠ 0 := by omega
    rcases readPartitionInfo_cases fuel i ⟨image,w.out⟩ with h | ⟨e,h⟩ | ⟨f,h⟩
    · have hprint : (main (ms i) fuel turns (callArgs 'p' progname path i)).run w' = .ok (-1) _ :=
        main_print_missing hs rfl hfile' hne (hout ▸ h)
      rw [onDevice_ok (correctAll_missing h),leave_same hfile,eachPartition,bind_ok hprint,if_neg (by decide)]
      exact ⟨hfiles.symm,hout.symm⟩
    · have hprint : (main (ms i) fuel turns (callArgs 'p' progname path i)).run w' = .ok 0 _ :=
        main_print_there hs rfl hfile' hne (hout ▸ h)
      rw [eachPartition,bind_ok hprint,if_pos rfl]
      generalize hw₁ : (w'.greet (callArgs 'p' progname path i) ⟨i,-1,some path,false⟩).say (entryLine e) = w₁
      have hfile₁ : w₁.files path = some image := by rw [← hw₁]; exact hfile'
      have hfiles₁ : w₁.files = w.files := by rw [← hw₁]; exact hfiles
      have hout₁ : w₁.out = w.out := by rw [← hw₁]; exact hout
      have hcorrect : SameEffect ((main (ms' i) fuel turns (callArgs 'f' progname path i)).run w₁)
          ((onDevice path image (correctEntry fuel e)).run w₁) :=
        main_correct_there hs' rfl hfile₁ rfl hne h0 (hout₁ ▸ h)
      cases hr : (correctEntry fuel e).run ⟨image,w.out⟩ with
      | ok u d =>
        rw [onDevice_ok (hout₁ ▸ hr)] at hcorrect
        obtain ⟨status,w₂,hrun,hfiles₂,hout₂⟩ := hcorrect.ok_inv
        obtain ⟨es,hall⟩ : ∃ es, (correctAll m.stack fuel m.left (k+1) i old).run ⟨image,w.out⟩ =
            (correctAll m.stack fuel m.left k (i+1) e >>= fun rest => pure (es++rest)).run d :=
          correctAll_ok (hleft i) h hr
        rw [bind_ok hrun]
        refine (onDevice_rest hall).trans (ih (by omega) (by push_cast at hk; omega) (leave_files_self d) ?_ hout₂)
        rw [hfiles₂,World.leave,World.leave,hfiles₁]
      | error f d =>
        rw [onDevice_error (hout₁ ▸ hr)] at hcorrect
        obtain ⟨w₂,hrun,hfiles₂,hout₂⟩ := hcorrect.error_inv
        rw [onDevice_error (correctAll_error h hr),bind_error hrun]
        refine ⟨rfl,?_,hout₂.symm⟩
        rw [hfiles₂,World.leave,World.leave,hfiles₁]
    · have hprint : (main (ms i) fuel turns (callArgs 'p' progname path i)).run w' = .error f _ :=
        main_print_unreadable hs rfl hfile' hne (hout ▸ h)
      rw [onDevice_error (correctAll_unreadable h),leave_same hfile,eachPartition,bind_error hprint]
      exact ⟨rfl,hfiles.symm,hout.symm⟩

theorem SameEffect.value {α β : Type} (x : Process α) (b : β) (w : World) :
    SameEffect ((x >>= fun _ => pure b).run w) (x.run w) := by
  cases hx : x.run w with
  | ok a w' =>
    rw [bind_ok hx]
    exact ⟨rfl,rfl⟩
  | error f w' =>
    rw [bind_error hx]
    exact ⟨rfl,rfl,rfl⟩

/-- A process for all partitions does to the file, and prints of the passes, what the script does that
asks for one partition after the other and corrects it, and they end in the same way. -/
theorem main_all_each {m : Memory} (hleft : ∀ i, m.left i ≠ -1) (ms ms' : ℤ → Memory) (fuel turns' : ℕ)
    {turns : ℕ} (hturns : 1+turns < 2^31) (progname path : List Char) {w : World} {image : Buf}
    (hfile : w.files path = some image) : SameEffect
      ((main m fuel turns (callArgs 'f' progname path 0)).run w)
      ((eachPartition ms ms' fuel turns' progname path turns 1).run w) := by
  have hs := settings_correct progname path (by decide : -2^31 ≤ (0 : ℤ) ∧ (0 : ℤ) < 2^31)
  rw [main_correct hs rfl hfile rfl (by decide : (0 : ℤ) ≠ -1)]
  refine (SameEffect.value _ 0 _).trans ?_
  exact correctAll_each hleft ms ms' fuel turns' progname path (le_refl 1) (by omega) hfile rfl rfl

theorem main_all_each_damaged : SameEffect
    ((main ⟨fun _ => 0,fun _ => 0⟩ 9 9 (callArgs 'f' ['m'] ['d'] 0)).run damagedWorld)
    ((eachPartition (fun _ => ⟨fun _ => 1,fun _ => -1⟩) (fun _ => ⟨fun _ => 2,fun _ => -1⟩) 9 0
      ['m'] ['d'] 9 1).run damagedWorld) :=
  main_all_each (fun _ => (by decide : (0 : ℤ) ≠ -1)) _ _ _ _ (by decide) _ _ rfl

end MyFsck
