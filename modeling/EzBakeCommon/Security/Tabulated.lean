/-
  EzBakeCommon.Security.Tabulated — an OpenSSL with tables for MD5 and DES.

  The digests and the DES blocks of a table are what the table says; any other
  text has the digest 0, and any other block its place in some permutation.
  Base64, the parity of a key and the keys that are refused are as documented; what
  does not fit in the memory is not written, and nothing is read of a malformed text.
  Whatever the tables, such an OpenSSL does what the real one documents
  (`tabulated_lawful`), and reads back what fits in the memory
  (`tabulated_readsBack`).
-/
import EzBakeCommon.Security.OpenSsl
import EzBakeCommon.Library.Base64
import Mathlib.Logic.Equiv.Basic

namespace EzBakeCommon.Security

open Library

/-- A block from its eight bytes. -/
def desBlock (a b c d e f g h : UInt8) : DesBlock := ⟨[a, b, c, d, e, f, g, h], rfl⟩

/-- The four weak and the twelve semi-weak keys, of odd parity. -/
def weakKeys : List DesBlock :=
  [desBlock 1 1 1 1 1 1 1 1, desBlock 254 254 254 254 254 254 254 254,
    desBlock 31 31 31 31 14 14 14 14, desBlock 224 224 224 224 241 241 241 241,
    desBlock 1 254 1 254 1 254 1 254, desBlock 254 1 254 1 254 1 254 1,
    desBlock 31 224 31 224 14 241 14 241, desBlock 224 31 224 31 241 14 241 14,
    desBlock 1 224 1 224 1 241 1 241, desBlock 224 1 224 1 241 1 241 1,
    desBlock 31 254 31 254 14 254 14 254, desBlock 254 31 254 31 254 14 254 14,
    desBlock 1 31 1 31 1 14 1 14, desBlock 31 1 31 1 14 1 14 1,
    desBlock 224 254 224 254 241 254 241 254, desBlock 254 224 254 224 254 241 254 241]

/-- The lowest bit makes the number of bits odd. -/
def oddParity (b : UInt8) : UInt8 :=
  if ((List.range 8).countP fun i => i ≠ 0 ∧ b.toNat.testBit i) % 2 = 0 then b ||| 1 else b &&& 254

/-- MD5 and DES at finitely many inputs. -/
structure Tables where
  digests : List (Bytes × Digest)
  /-- A key, a block, and the block encrypted. -/
  blocks : List (DesBlock × DesBlock × DesBlock)
  /-- Of how many bytes the base64 text fits in a memory `BIO`. -/
  memory : Nat

namespace Tables

variable (t : Tables)

def digest (bytes : Bytes) : Digest := (t.digests.lookup bytes).getD 0

/-- A permutation that exchanges the blocks of the table under this key. -/
def des (key : DesBlock) : Equiv.Perm DesBlock :=
  t.blocks.foldr
    (fun row perm => if row.1 = key then perm.trans (Equiv.swap row.2.1 row.2.2) else perm)
    (Equiv.refl DesBlock)

def ecb (block key : DesBlock) (enc : Bool) : DesBlock :=
  if enc then t.des key block else (t.des key).symm block

def ncbc (text : Bytes) (key ivec : DesBlock) (enc : Bool) : Bytes :=
  if enc then Blocks.join (Cbc.encrypt (t.ecb · key true) ivec (Blocks.blocks 8 text))
  else Blocks.join (Cbc.decrypt (t.ecb · key false) ivec (Blocks.blocks 8 text))

def tabulated : OpenSsl where
  Schedule := DesBlock
  digest := fun bytes => some (t.digest bytes)
  setOddParity := List.Vector.map oddParity
  setKeyChecked := fun key => if key ∈ weakKeys then none else some key
  ecbEncrypt := t.ecb
  ncbcEncrypt := t.ncbc
  base64Write := fun bytes => Base64.encode (bytes.take t.memory)
  -- nothing is decoded of a malformed text
  base64Read := fun text length =>
    some ⟨((Base64.decode text).getD []).take length, List.length_take_le _ _⟩

/-- **Whatever the tables, OpenSSL does what it documents.** -/
theorem tabulated_lawful : t.tabulated.Lawful where
  digest_returns := fun _ => rfl
  ecb_inverts := fun key block => (t.des key).symm_apply_apply block
  ncbc_encrypt := by
    intro key ivec blocks
    show Blocks.join (Cbc.encrypt _ ivec (Blocks.blocks 8 (Blocks.join blocks))) = _
    rw [Blocks.blocks_join (by decide)]
    rfl
  ncbc_decrypt := by
    intro key ivec blocks
    show Blocks.join (Cbc.decrypt _ ivec (Blocks.blocks 8 (Blocks.join blocks))) = _
    rw [Blocks.blocks_join (by decide)]
    rfl

/-- **What fits in the memory is read back.** -/
theorem tabulated_readsBack : t.tabulated.ReadsBack t.memory := by
  intro bytes hle
  have hwrite : t.tabulated.base64Write bytes = Base64.encode bytes :=
    congrArg Base64.encode (List.take_of_length_le hle)
  have hlength : bytes.length ≤ (Base64.encode bytes).length := by
    rw [Base64.length_encode]
    omega
  rw [hwrite]
  show some (((Base64.decode (Base64.encode bytes)).getD []).take (Base64.encode bytes).length) = _
  rw [Base64.decode_encode, Option.getD_some, List.take_of_length_le hlength]

/-- A key that is not weak is its own schedule. -/
theorem setKeyChecked_strong {key : DesBlock} (h : key ∉ weakKeys) :
    t.tabulated.setKeyChecked key = some key := by
  show (if key ∈ weakKeys then none else some key) = some key
  exact if_neg h

end Tables

/-! ## A table of true values. -/

/-- `"secret"` -/
def samplePassword : Bytes := [115, 101, 99, 114, 101, 116]

/-- The MD5 digest of `"secretbouncyca"`. -/
def sampleDigest : Digest :=
  ⟨[247, 113, 179, 24, 111, 157, 113, 149, 1, 51, 126, 147, 174, 5, 113, 66], rfl⟩

/-- Its first half, with odd parity. -/
def sampleKey : DesBlock := desBlock 247 112 179 25 110 157 112 148

/-- Its second half. -/
def sampleIvec : DesBlock := desBlock 1 51 126 147 174 5 113 66

/-- The digest, and three blocks under its key; a gigabyte of memory. -/
def sample : Tables where
  digests := [(samplePassword ++ [98, 111, 117, 110, 99, 121, 99, 97], sampleDigest)]
  blocks :=
    [(sampleKey, desBlock 105 90 120 149 168 3 119 68, desBlock 26 36 48 170 132 77 151 138),
      (sampleKey, desBlock 64 114 63 210 239 68 48 3, desBlock 151 30 92 37 64 178 73 183),
      (sampleKey, desBlock 159 22 84 45 72 186 65 191, desBlock 137 103 224 167 160 5 190 14)]
  memory := 1073741824

end EzBakeCommon.Security
