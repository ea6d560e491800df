import MBFGraph.Lib.Overwrite

/-!
# Buffered files

A `FILE` is its content and a position. The unit of both is a parameter: bytes, or whole
records where every offset of a program is a multiple of the record size.
-/

namespace Stdio

open Overwrite

variable {α : Type}

/-- An open file: what it holds and where the next `fread` or `fwrite` takes place. -/
structure File (α : Type) where
  content : List α
  pos : Nat

/-- A file that was just opened. -/
def File.opened (content : List α) : File α := ⟨content, 0⟩

/-- `fseeko(fp, n, SEEK_SET)`. -/
def fseek (fp : File α) (n : Nat) : File α := { fp with pos := n }

/-- `fread` of `n` units: the units that were there, and the file behind them. -/
def fread (fp : File α) (n : Nat) : List α × File α :=
  let units := (fp.content.drop fp.pos).take n
  (units, { fp with pos := fp.pos + units.length })

/-- `fwrite` of a run of units. -/
def fwrite [Inhabited α] (fp : File α) (units : List α) : File α :=
  { content := overwrite fp.content fp.pos units, pos := fp.pos + units.length }

@[simp] theorem fseek_content (fp : File α) (n : Nat) : (fseek fp n).content = fp.content := rfl
@[simp] theorem fseek_pos (fp : File α) (n : Nat) : (fseek fp n).pos = n := rfl
@[simp] theorem fread_content (fp : File α) (n : Nat) :
    (fread fp n).2.content = fp.content := rfl

@[simp] theorem fwrite_nil [Inhabited α] (fp : File α) : fwrite fp [] = fp := by
  simp [fwrite]

/-- Two writes in a row are one write. -/
theorem fwrite_fwrite [Inhabited α] {fp : File α} (inside : fp.pos ≤ fp.content.length)
    (xs ys : List α) : fwrite (fwrite fp xs) ys = fwrite fp (xs ++ ys) := by
  simp only [fwrite, List.length_append, overwrite_append _ _ _ _ inside, Nat.add_assoc]

/-- Writing behind the last unit appends. -/
theorem fwrite_at_end [Inhabited α] (content units : List α) :
    fwrite ⟨content, content.length⟩ units =
      ⟨content ++ units, (content ++ units).length⟩ := by
  simp [fwrite]

/-- The content of a new file after its first write. -/
@[simp] theorem fwrite_opened_nil [Inhabited α] (units : List α) :
    (fwrite (File.opened []) units).content = units := by
  simp [fwrite, File.opened, overwrite_zero]

end Stdio
