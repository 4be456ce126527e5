import Mathlib

/-!
# Operations on the files of a directory

A directory knows the file behind each name. Renaming moves a file to another name, and the file
that had this name is lost; a name that no operation gives to a file stays without one.
-/
namespace ACENetwork.Library

/-- A file that has been there before, under some name, or one that has been created. -/
inductive File (ν : Type*) where
  | former (name : ν)
  | created
  deriving DecidableEq, Repr

inductive FileOp (ν : Type*) where
  | rename (old new : ν)
  | delete (name : ν)
  | create (name : ν)
  deriving DecidableEq, Repr

abbrev Directory (ν : Type*) := ν → Option (File ν)

namespace Directory

variable {ν : Type*} [DecidableEq ν] {d : Directory ν} {op : FileOp ν} {ops : List (FileOp ν)}
  {name : ν}

/-- The directory of some names, before anything happens to its files. -/
def ofNames (names : Finset ν) : Directory ν := fun name =>
  if name ∈ names then some (.former name) else none

def perform (d : Directory ν) : FileOp ν → Directory ν
  | .rename old new => Function.update (Function.update d old none) new (d old)
  | .delete name => Function.update d name none
  | .create name => Function.update d name (some ((d name).getD .created))

def performAll (d : Directory ν) (ops : List (FileOp ν)) : Directory ν := ops.foldl perform d

def NoOverwrite : Directory ν → List (FileOp ν) → Prop
  | _, [] => True
  | d, op :: ops =>
    (∀ old new, op = .rename old new → old ≠ new → d new = none) ∧ NoOverwrite (d.perform op) ops

def Takes (name : ν) (op : FileOp ν) : Prop := op = .delete name ∨ ∃ new, op = .rename name new

def Gives (name : ν) (op : FileOp ν) : Prop := op = .create name ∨ ∃ old, op = .rename old name

theorem ofNames_of_mem {names : Finset ν} (h : name ∈ names) :
    ofNames names name = some (.former name) := if_pos h

theorem ofNames_of_notMem {names : Finset ν} (h : name ∉ names) : ofNames names name = none :=
  if_neg h

theorem perform_gone (h : d name = none ∨ Takes name op) (hgives : ¬ Gives name op) :
    d.perform op name = none := by
  cases op with
  | rename old new =>
    have hnew : name ≠ new := fun heq => hgives (.inr ⟨old, heq ▸ rfl⟩)
    rw [perform, Function.update_of_ne hnew]
    by_cases hold : name = old
    · rw [hold, Function.update_self]
    · rw [Function.update_of_ne hold]
      refine h.resolve_right ?_
      rintro (⟨⟨⟩⟩ | ⟨new', heq⟩)
      exact hold (FileOp.rename.inj heq).1.symm
  | delete other =>
    rw [perform]
    by_cases hother : name = other
    · rw [hother, Function.update_self]
    · rw [Function.update_of_ne hother]
      refine h.resolve_right ?_
      rintro (heq | ⟨new', ⟨⟩⟩)
      exact hother (FileOp.delete.inj heq).symm
  | create other =>
    have hother : name ≠ other := fun heq => hgives (.inl (heq ▸ rfl))
    rw [perform, Function.update_of_ne hother]
    refine h.resolve_right ?_
    rintro (⟨⟨⟩⟩ | ⟨new', ⟨⟩⟩)

/-- A name that some operation takes away and none gives to a file has none in the end. -/
theorem performAll_gone (h : d name = none ∨ ∃ op ∈ ops, Takes name op)
    (hgives : ∀ op ∈ ops, ¬ Gives name op) : d.performAll ops name = none := by
  induction ops generalizing d with
  | nil => exact h.resolve_right (by simp)
  | cons op ops ih =>
    obtain ⟨hop, hops⟩ := List.forall_mem_cons.mp hgives
    refine ih ?_ hops
    rcases h with hnone | ⟨op', hmem, htakes⟩
    · exact .inl (perform_gone (.inl hnone) hop)
    · rcases List.mem_cons.mp hmem with rfl | hmem
      · exact .inl (perform_gone (.inr htakes) hop)
      · exact .inr ⟨op', hmem, htakes⟩

end Directory
end ACENetwork.Library
