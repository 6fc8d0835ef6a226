import CodeEditing.Files.Tree

/-! Starting programs.

A program is named or given by a path. Those that can be started have names and lie outside of the
tree, where they are looked up; no file of the tree is one, so a path leads to no program.

`start_eq_ok_iff`: just the installed programs are started, unless a zero is in the command. -/
namespace CodeEditing.Files

/-- Why a program cannot be started. -/
inductive StartFault where
  | zeroInCommand
  | forbidden
  | lookup (f : Fault)
  deriving Repr, DecidableEq

namespace StartFault

def message : StartFault → String
  | zeroInCommand => "nul byte found in provided data"
  | forbidden => "Permission denied (os error 13)"
  | lookup f => f.message

/-- Why there is no program with this name. The names of folders lead to what is no program. -/
def ofName (name : String) : StartFault :=
  if name = "." || name = ".." then forbidden
  else if maxNameSize < name.utf8ByteSize then lookup .tooLong
  else lookup .notFound

/-- Why what is at a path is no program. -/
def ofPath (t : Tree) (path : String) : StartFault :=
  match t.find path with
  | .error f => lookup f
  | .ok place =>
    if (t.text? place).isSome || t.hasFolder place then forbidden else lookup .notFound

end StartFault

namespace Tree

/-- Starts a program, where `installed` gives the programs that there are. -/
def start {α : Type} (t : Tree) (installed : String → List String → Option α) (program : String)
    (args : List String) : Except StartFault α :=
  if (program :: args).any (·.toList.contains '\x00') then .error .zeroInCommand
  else
    match installed program args with
    | some started => .ok started
    | none =>
      .error (if program.toList.contains '/' then .ofPath t program else .ofName program)

/-- What is started is an installed program whose command has no zero in it. -/
theorem start_eq_ok_iff {α : Type} {t : Tree} {installed : String → List String → Option α}
    {program : String} {args : List String} {started : α} :
    t.start installed program args = .ok started ↔
      (∀ s ∈ program :: args, '\x00' ∉ s.toList) ∧ installed program args = some started := by
  have h : (program :: args).any (·.toList.contains '\x00') = true ↔
      ¬ ∀ s ∈ program :: args, '\x00' ∉ s.toList := by
    simp [-List.mem_cons, -List.any_cons]
  rw [start]
  split
  · next hz => exact ⟨nofun, fun hs => absurd hs.1 (h.1 hz)⟩
  · next hz =>
    have hn := Decidable.not_not.1 (mt h.2 hz)
    split <;> simp_all

end Tree

end CodeEditing.Files
