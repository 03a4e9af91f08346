import Memcached.Util.Numbers

/-!
# Base64 (`base64.c`)

The meta commands take keys in base64. Both functions write into a buffer of the
caller and give back the number of bytes written, 0 on failure; here they give back
the bytes, none of them on failure.
-/

namespace Memcached.Util

def base64Table (n : ℕ) : UInt8 :=
  (ascii "ABCDEFGHIJKLMNOPQRSTUVWXYZabcdefghijklmnopqrstuvwxyz0123456789+/").getD n 0

/-- `dtable`: the value of a character of the alphabet, 0 for the padding `=`; `none`
is the table's 128. -/
def dtable (c : UInt8) : Option ℕ :=
  if c = 61 then some 0 -- =
  else if 65 ≤ c ∧ c ≤ 90 then some (c.toNat - 65)
  else if 97 ≤ c ∧ c ≤ 122 then some (c.toNat - 97 + 26)
  else if 48 ≤ c ∧ c ≤ 57 then some (c.toNat - 48 + 52)
  else if c = 43 then some 62
  else if c = 47 then some 63
  else none

/-- The loop of `base64_encode` over blocks of three bytes and the padded end
(lines 116-135). -/
def encodeBlocks : Bytes → Bytes
  | x :: y :: z :: src =>
    base64Table (x.toNat / 4) :: base64Table (x.toNat % 4 * 16 + y.toNat / 16) ::
      base64Table (y.toNat % 16 * 4 + z.toNat / 64) :: base64Table (z.toNat % 64) ::
      encodeBlocks src
  | [x, y] =>
    [base64Table (x.toNat / 4), base64Table (x.toNat % 4 * 16 + y.toNat / 16),
      base64Table (y.toNat % 16 * 4), 61]
  | [x] => [base64Table (x.toNat / 4), base64Table (x.toNat % 4 * 16), 61, 61]
  | [] => []

/-- `base64_encode` (lines 93-139). -/
def base64Encode (src : Bytes) (outLen : ℕ) : Bytes :=
  let olen := src.length * 4 / 3 + 4
  if olen + olen / 72 + 1 > outLen then [] else encodeBlocks src

/-- The three bytes of a block of four values. -/
def decodeBlock (w x y z : ℕ) : Bytes :=
  [UInt8.ofNat (w * 4 + x / 16), UInt8.ofNat (x * 16 + y / 4), UInt8.ofNat (y * 64 + z)]

/-- The second loop of `base64_decode` (lines 175-202), over the
characters of the alphabet: it stops after the first block with padding, and `none`
means that the padding is invalid. -/
def decodeBlocks : Bytes → Option Bytes
  | w :: x :: y :: z :: src =>
    let block := decodeBlock ((dtable w).getD 0) ((dtable x).getD 0) ((dtable y).getD 0)
      ((dtable z).getD 0)
    match [w, x, y, z].count 61 with
    | 0 => (decodeBlocks src).map (block ++ ·)
    | 1 => some (block.take 2)
    | 2 => some (block.take 1)
    | _ => none
  | _ => some []

/-- `base64_decode` (lines 150-205): characters outside the alphabet are
skipped. -/
def base64Decode (src : Bytes) (outLen : ℕ) : Bytes :=
  let chars := src.filter fun c => (dtable c).isSome
  if chars.length = 0 ∨ chars.length % 4 ≠ 0 then []
  else if chars.length / 4 * 3 > outLen then []
  else (decodeBlocks chars).getD []

end Memcached.Util
