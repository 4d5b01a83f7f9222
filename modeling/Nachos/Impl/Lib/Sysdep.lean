import Mathlib.Data.Nat.Digits.Defs
import Nachos.Impl.Lib.Debug

/-!
# Files and text of the host system

The stub file system (`FILESYS_STUB`) uses UNIX files through `lib/sysdep.cc`:
a file is its bytes, `Lseek` aborts on a negative position, `ReadPartial`
returns what there is, and `WriteFile` extends the file. `sprintf` writes the
decimal text of a number and a 0 into a buffer; `atoi` reads it.
-/

namespace Nachos

abbrev Byte := BitVec 8

/-- The result of arithmetic on `int`, which must not overflow. -/
def i32 (x : Int) : Except Abort Int := do
  defined (-2 ^ 31 ≤ x ∧ x < 2 ^ 31)
  return x

namespace Unix

/-- `OpenFile::ReadAt`: the bytes read. -/
def readAt (file : List Byte) (numBytes : Nat) (position : Int) : Except Abort (List Byte) := do
  assert (0 ≤ position)
  return (file.drop position.toNat).take numBytes

/-- `OpenFile::WriteAt`: the file after it. -/
def writeAt (file : List Byte) (src : List Byte) (position : Int) : Except Abort (List Byte) := do
  assert (0 ≤ position)
  let p := position.toNat
  let file := file ++ List.replicate (p - file.length) 0
  return file.take p ++ src ++ file.drop (p + src.length)

end Unix

/-- A decimal digit. -/
def digitChar (d : Nat) : Byte := BitVec.ofNat 8 (48 + d)

/-- The text of `%d`. -/
def decimal (n : Int) : List Byte :=
  (if n < 0 then [45#8] else []) ++
    if n = 0 then [48#8] else (Nat.digits 10 n.natAbs).reverse.map digitChar

/-- `sprintf(buf, "%d", n)`. -/
def sprintf (buf : List Byte) (n : Int) : List Byte :=
  decimal n ++ 0 :: buf.drop ((decimal n).length + 1)

/-- `isspace`. -/
def isspace (c : Byte) : Bool := c.toNat = 32 || (9 ≤ c.toNat && c.toNat ≤ 13)

/-- The digits `atoi` reads, after those that make `acc`. -/
def atoiDigits (acc : Nat) : List Byte → Nat
  | [] => acc
  | c :: cs => if 48 ≤ c.toNat ∧ c.toNat ≤ 57 then atoiDigits (acc * 10 + (c.toNat - 48)) cs else acc

/-- `atoi`. -/
def atoi (buf : List Byte) : Int :=
  match buf.dropWhile isspace with
  | [] => 0
  | c :: cs =>
    if c = 45#8 then -(atoiDigits 0 cs : Int)
    else if c = 43#8 then atoiDigits 0 cs
    else atoiDigits 0 (c :: cs)

end Nachos
