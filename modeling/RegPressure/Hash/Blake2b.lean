import RegPressure.Text.Quoted

namespace RegPressure.Blake2b

def iv : Array UInt64 := #[
  0x6a09e667f3bcc908, 0xbb67ae8584caa73b, 0x3c6ef372fe94f82b, 0xa54ff53a5f1d36f1,
  0x510e527fade682d1, 0x9b05688c2b3e6c1f, 0x1f83d9abfb41bd6b, 0x5be0cd19137e2179]

def sigma : List (List Nat) := [
  [0, 1, 2, 3, 4, 5, 6, 7, 8, 9, 10, 11, 12, 13, 14, 15],
  [14, 10, 4, 8, 9, 15, 13, 6, 1, 12, 0, 2, 11, 7, 5, 3],
  [11, 8, 12, 0, 5, 2, 15, 13, 10, 14, 3, 6, 7, 1, 9, 4],
  [7, 9, 3, 1, 13, 12, 11, 14, 2, 6, 5, 10, 4, 0, 15, 8],
  [9, 0, 5, 7, 2, 4, 10, 15, 14, 1, 11, 12, 6, 8, 3, 13],
  [2, 12, 6, 10, 0, 11, 8, 3, 4, 13, 7, 5, 15, 14, 1, 9],
  [12, 5, 1, 15, 14, 13, 4, 10, 0, 7, 6, 3, 9, 2, 8, 11],
  [13, 11, 7, 14, 12, 1, 3, 9, 5, 0, 15, 4, 8, 6, 2, 10],
  [6, 15, 14, 9, 11, 3, 0, 8, 12, 2, 13, 7, 1, 4, 10, 5],
  [10, 2, 8, 4, 7, 6, 1, 5, 15, 11, 9, 14, 3, 12, 13, 0],
  [0, 1, 2, 3, 4, 5, 6, 7, 8, 9, 10, 11, 12, 13, 14, 15],
  [14, 10, 4, 8, 9, 15, 13, 6, 1, 12, 0, 2, 11, 7, 5, 3]]

def rotr (x : UInt64) (n : UInt64) : UInt64 := (x >>> n) ||| (x <<< (64 - n))

def word (v : Array UInt64) (i : Nat) : UInt64 := v.getD i 0

def mix (v : Array UInt64) (a b c d : Nat) (x y : UInt64) : Array UInt64 :=
  let va := word v a + word v b + x
  let vd := rotr (word v d ^^^ va) 32
  let vc := word v c + vd
  let vb := rotr (word v b ^^^ vc) 24
  let va := va + vb + y
  let vd := rotr (vd ^^^ va) 16
  let vc := vc + vd
  let vb := rotr (vb ^^^ vc) 63
  v |>.setIfInBounds a va |>.setIfInBounds b vb |>.setIfInBounds c vc |>.setIfInBounds d vd

def lanes : List (Nat × Nat × Nat × Nat) :=
  [(0, 4, 8, 12), (1, 5, 9, 13), (2, 6, 10, 14), (3, 7, 11, 15),
   (0, 5, 10, 15), (1, 6, 11, 12), (2, 7, 8, 13), (3, 4, 9, 14)]

def round (m : Array UInt64) (v : Array UInt64) (s : List Nat) : Array UInt64 :=
  (lanes.zipIdx).foldl (fun v ((a, b, c, d), i) =>
    mix v a b c d (word m (s.getD (2 * i) 0)) (word m (s.getD (2 * i + 1) 0))) v

def compress (h m : Array UInt64) (count : Nat) (last : Bool) : Array UInt64 :=
  let v := h ++ iv
  let v := v.setIfInBounds 12 (word v 12 ^^^ UInt64.ofNat count)
  let v := v.setIfInBounds 13 (word v 13 ^^^ UInt64.ofNat (count >>> 64))
  let v := if last then v.setIfInBounds 14 (word v 14 ^^^ 0xffffffffffffffff) else v
  let v := sigma.foldl (round m) v
  (Array.range 8).map fun i => word h i ^^^ word v i ^^^ word v (i + 8)

/-- Octets of a word, the least significant first. -/
def octets (x : UInt64) : Bytes := (List.range 8).map fun i => (x >>> UInt64.ofNat (8 * i)).toUInt8

def words (block : ByteArray) : Array UInt64 :=
  let octet (i : Nat) : UInt64 := (block.data.getD i 0).toUInt64
  (Array.range 16).map fun i =>
    (List.range 8).foldr (fun j w => (w <<< 8) ||| octet (8 * i + j)) 0

def absorb (text : ByteArray) (h : Array UInt64) : (blocks start : Nat) → Array UInt64
  | 0, _ => h
  | 1, start => compress h (words (text.extract start text.size)) text.size true
  | n + 2, start =>
    absorb text (compress h (words (text.extract start (start + 128))) (start + 128) false) (n + 1)
      (start + 128)

/-- BLAKE2b without a key, with a digest of 32 octets. -/
def hash256 (text : Bytes) : Bytes :=
  let text : ByteArray := ⟨text.toArray⟩
  let h := iv.setIfInBounds 0 (word iv 0 ^^^ 0x01010020)
  let h := absorb text h (max 1 ((text.size + 127) / 128)) 0
  (h.toList.flatMap octets).take 32

def hexText (bs : Bytes) : String := String.join (bs.map fun b => Text.hex 2 b.toNat)

end RegPressure.Blake2b
