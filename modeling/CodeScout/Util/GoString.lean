import Mathlib.Data.List.Basic

/-!
# Go strings

A Go string is a sequence of bytes with no promise that they are valid
UTF-8, and the programs modelled here index, slice and compare it byte by
byte. `GoString` is that sequence. A string constant of a program is
written with `lit`, which encodes it the way the Go compiler does, so a
reader compares texts and not numbers.
-/

/-- **A Go string**: its bytes, valid UTF-8 or not. -/
abbrev GoString := List UInt8

/-- The bytes of a string constant. -/
def lit (s : String) : GoString := s.toUTF8.data.toList
