/-!
# A stream of random words

The words are the output of the ChaCha cipher with twelve rounds, under a key
that is spread from a small seed. A `Stream` is what is left of it: the words of
the last block that were not taken yet, and the number of the block after it.
-/

namespace Bisection.Random
set_option autoImplicit false

/-- A word rotated left. -/
def rotateLeft (x : UInt32) (n : UInt32) : UInt32 := (x <<< n) ||| (x >>> (32 - n))

/-- A word rotated right, by less than its width. -/
def rotateRight (x : UInt32) (n : UInt32) : UInt32 := (x >>> n) ||| (x <<< ((32 - n) % 32))

/-- Mixes four words of a block. -/
def quarterRound (s : Vector UInt32 16) (a b c d : Fin 16) : Vector UInt32 16 :=
  let wa := s[a] + s[b]
  let wd := rotateLeft (s[d] ^^^ wa) 16
  let wc := s[c] + wd
  let wb := rotateLeft (s[b] ^^^ wc) 12
  let wa := wa + wb
  let wd := rotateLeft (wd ^^^ wa) 8
  let wc := wc + wd
  let wb := rotateLeft (wb ^^^ wc) 7
  (((s.set a wa).set b wb).set c wc).set d wd

/-- Mixes the columns and then the diagonals of a block. -/
def doubleRound (s : Vector UInt32 16) : Vector UInt32 16 :=
  let s := quarterRound s 0 4 8 12
  let s := quarterRound s 1 5 9 13
  let s := quarterRound s 2 6 10 14
  let s := quarterRound s 3 7 11 15
  let s := quarterRound s 0 5 10 15
  let s := quarterRound s 1 6 11 12
  let s := quarterRound s 2 7 8 13
  quarterRound s 3 4 9 14

/-- The constants, the key, and the number of the block with the low word first. -/
def blockInput (key : Vector UInt32 8) (counter : Nat) : Vector UInt32 16 :=
  #v[0x61707865, 0x3320646e, 0x79622d32, 0x6b206574,
    key[0], key[1], key[2], key[3], key[4], key[5], key[6], key[7],
    UInt32.ofNat counter, UInt32.ofNat (counter >>> 32), 0, 0]

/-- The words of a block. -/
def block (key : Vector UInt32 8) (counter : Nat) : List UInt32 :=
  let s := blockInput key counter
  let mixed := (List.range 6).foldl (fun s _ => doubleRound s) s
  (Vector.zipWith (· + ·) mixed s).toList

/-- What is left of a stream of words. -/
structure Stream where
  key : Vector UInt32 8
  counter : Nat
  words : List UInt32

namespace Stream

/-- The next state of the generator that spreads a seed. -/
def spread (s : UInt64) : UInt64 := s * 6364136223846793005 + 11634580027462260723

/-- The word that the state of that generator gives. -/
def spreadWord (s : UInt64) : UInt32 :=
  rotateRight (((s >>> 18) ^^^ s) >>> 27).toUInt32 (s >>> 59).toUInt32

/-- The stream of a seed. -/
def ofSeed (seed : UInt64) : Stream :=
  let state (n : Nat) : UInt64 := n.repeat spread seed
  ⟨Vector.ofFn fun i : Fin 8 => spreadWord (state (i.val + 1)), 0, []⟩

/-- The next word, and the stream after it. -/
def next (r : Stream) : UInt32 × Stream :=
  match r.words with
  | w :: words => (w, { r with words := words })
  | [] =>
    match block r.key r.counter with
    | w :: words => (w, ⟨r.key, r.counter + 1, words⟩)
    | [] => (0, r)

/-- The next number of 32 bits. -/
def next32 (r : Stream) : Nat × Stream :=
  let (w, r) := r.next
  (w.toNat, r)

/-- The next number of 64 bits, the low half first. -/
def next64 (r : Stream) : Nat × Stream :=
  let (low, r) := r.next
  let (high, r) := r.next
  (high.toNat <<< 32 ||| low.toNat, r)

/-- A number below `n`, from numbers of the given width. A number is multiplied by `n`, and the
high bits of the product are the result. When the low bits are so high that more of them could
carry over, a second number gives more bits. -/
def below (width : Nat) (draw : Stream → Nat × Stream) (n : Nat) (r : Stream) : Nat × Stream :=
  let (x, r) := draw r
  let product := x * n
  let high := product >>> width
  let low := product % (1 <<< width)
  if 1 <<< width - n < low then
    let (y, r) := draw r
    (if 1 <<< width ≤ low + (y * n) >>> width then high + 1 else high, r)
  else (high, r)

/-- A number below `n`, from numbers of 32 bits. -/
def below32 : Nat → Stream → Nat × Stream := below 32 next32

/-- A number below `n`, from numbers of 64 bits. -/
def below64 : Nat → Stream → Nat × Stream := below 64 next64

end Stream

end Bisection.Random
