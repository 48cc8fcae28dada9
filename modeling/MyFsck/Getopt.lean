import Mathlib.Data.List.Basic

/-! `getopt` of the C library: the options among the arguments of a process. It looks for options behind
operands too, up to an argument `--`. -/
namespace Getopt

/-- A character `getopt` returns, with the string `optarg` then points to. -/
abbrev Found := Char × Option (List Char)

/-- Whether `c` is an option, and if so whether it takes an argument. -/
def takes (optstring : List Char) (c : Char) : Option Bool :=
  if c = ':' then none
  else match optstring.dropWhile (· ≠ c) with
    | [] => none
    | _ :: ':' :: _ => some true
    | _::_ => some false

/-- The options in one argument. The argument of the last one may be still to come. -/
def cluster (optstring : List Char) : List Char → List Found × Option Char
  | [] => ([],none)
  | c::cs =>
    match takes optstring c with
    | none => (('?',none)::(cluster optstring cs).1,(cluster optstring cs).2)
    | some false => ((c,none)::(cluster optstring cs).1,(cluster optstring cs).2)
    | some true => if cs = [] then ([],some c) else ([(c,some cs)],none)

/-- The options and the operands. -/
def scan (optstring : List Char) : List (List Char) → List Found × List (List Char)
  | [] => ([],[])
  | ['-','-']::args => ([],args)
  | ('-'::c::cs)::args =>
    let r := cluster optstring (c::cs)
    match r.2, args with
    | none, args => (r.1++(scan optstring args).1,(scan optstring args).2)
    | some _, [] => (r.1++[('?',none)],[])
    | some c, arg::args => (r.1++(c,some arg)::(scan optstring args).1,(scan optstring args).2)
  | arg::args => ((scan optstring args).1,arg::(scan optstring args).2)

/-- An option as it is written in arguments of its own. -/
def spell : Found → List (List Char)
  | (c,none) => [['-',c]]
  | (c,some optarg) => [['-',c],optarg]

/-- An option of the option string, with an argument if it takes one. -/
def Proper (optstring : List Char) (o : Found) : Prop := o.1 ≠ '-' ∧ takes optstring o.1 = some o.2.isSome

variable {optstring : List Char}

theorem scan_spell {o : Found} (h : Proper optstring o) (args : List (List Char)) :
    scan optstring (spell o++args) = (o::(scan optstring args).1,(scan optstring args).2) := by
  obtain ⟨c,optarg⟩ := o
  obtain ⟨hc,ht⟩ := h
  dsimp only at hc ht
  cases optarg with
  | none =>
    have hcluster : cluster optstring [c] = ([(c,none)],none) := by
      rw [cluster,ht]
      rfl
    simp [spell,scan,hcluster,hc]
  | some a =>
    have hcluster : cluster optstring [c] = ([],some c) := by
      rw [cluster,ht]
      rfl
    simp [spell,scan,hcluster,hc]

theorem scan_spells {os : List Found} (h : ∀ o ∈ os, Proper optstring o) :
    scan optstring (os.flatMap spell) = (os,[]) := by
  induction os with
  | nil => rfl
  | cons o os ih =>
    rw [List.flatMap_cons,scan_spell (h o (by simp)),ih fun o' ho => h o' (by simp [ho])]

end Getopt
