import BaSic.CString
import BaSic.Lib.Writes

namespace BaSic.Kernel
open Lib

/-- The characters before the terminating NUL. -/
structure CString where
  chars : List UInt8
  noNul : ∀ c ∈ chars, c ≠ 0

/-- One 32-byte directory entry; its first 11 bytes are the raw name. -/
abbrev Entry := Fin 32 → UInt8

instance entry_nonempty : NeZero 32 := ⟨by decide⟩

def chSpace : UInt8 := 0x20

def chDot : UInt8 := 0x2E

def chSlash : UInt8 := 0x2F

/-- `if (*path == '/') path++` -/
def CString.skipSlash (path : CString) : CString where
  chars := if path.chars.head? = some chSlash then path.chars.tail else path.chars
  noNul := by
    intro c hc
    split at hc
    · exact path.noNul c (List.mem_of_mem_tail hc)
    · exact path.noNul c hc

def upper (c : UInt8) : UInt8 := if 0x61 ≤ c ∧ c ≤ 0x7A then c - 32 else c

/-- The bytes `fat83_to_str` puts into its buffer before the NUL. -/
def fat83ToStr (raw : Entry) : List UInt8 :=
  let base := (List.ofFn (fun i : Fin 8 => raw (i.castLE (by omega)))).takeWhile (· ≠ chSpace)
  if raw 8 ≠ chSpace then
    base ++ chDot :: [raw 8, raw 9, raw 10].takeWhile (· ≠ chSpace)
  else base

/-- The buffer read back as a C string: a NUL among the raw bytes cuts it short. -/
def entryName (raw : Entry) : CString where
  chars := (fat83ToStr raw).takeWhile (· ≠ 0)
  noNul := by
    intro c hc
    simpa using List.mem_takeWhile_imp hc

/-- `for (; i < hi && raw[i] != ' '; i++) out[j++] = raw[i];` with `hi - i` turns to go -/
def copyRaw (raw : CharArray) (i : Nat) (out : Writing) (j : Nat) : Nat → Writing × Nat
  | 0 => (out, j)
  | left + 1 => if raw i ≠ chSpace then copyRaw raw (i + 1) (out.put j (raw i)) (j + 1) left else (out, j)

/-- `fat83_to_str` on its two arrays, with the places in `out` that it writes. -/
def fat83ToBuf (raw out : CharArray) : Writing :=
  let (out, j) := copyRaw raw 0 ⟨out, []⟩ 0 8
  let (out, j) := if raw 8 ≠ chSpace then copyRaw raw 8 (out.put j chDot) (j + 1) 3 else (out, j)
  out.put j 0

def fat12NameMax : Nat := 13

/-- The string in an array of `FAT12_NAME_MAX` characters. -/
def nameIn (a : CharArray) : CString where
  chars := text a fat12NameMax
  noNul := fun _ hc h => text_from_no_nul (h ▸ hc)

def dotIndex (name : CString) : Option Nat := name.chars.findIdx? (· = chDot)

def strToFat83 (name : CString) : Fin 11 → UInt8 := fun i =>
  let dot := dotIndex name
  let baseLen := min (dot.getD name.chars.length) 8
  if i.val < 8 then
    if i.val < baseLen then upper (name.chars.getD i.val 0) else chSpace
  else
    match dot with
    | none => chSpace
    | some d =>
      let extLen := min (name.chars.length - d - 1) 3
      if i.val - 8 < extLen then upper (name.chars.getD (d + 1 + (i.val - 8)) 0) else chSpace

def namesMatch (fatName query : CString) : Bool :=
  fatName.chars.length == query.chars.length &&
    (fatName.chars.zip query.chars).all (fun (a, b) => upper a == upper b)

end BaSic.Kernel
