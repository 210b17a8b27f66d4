import Mathlib.Tactic

/-!
# The keystream generator

`encryptor.sv`: three 32-bit xorshift registers, one per colour channel, whose low bytes are the
keystream. A register holding zero is reseeded with its channel's constant instead of shifted.
The registers step on every rise of `clk && wren`; the gate itself belongs to the instance in
`Live/Keystream.lean`.
-/

namespace VideoEncryption

/-- The registers `R_prev`, `G_prev`, `B_prev`. -/
structure Encryptor where
  rPrev : BitVec 32
  gPrev : BitVec 32
  bPrev : BitVec 32
deriving DecidableEq, Repr

/-- What the module drives: the low byte of every register. -/
structure EncryptorOut where
  rOut : BitVec 8
  gOut : BitVec 8
  bOut : BitVec 8
deriving DecidableEq, Repr

namespace Encryptor

/-- The wires `R_xor1`, `G_xor1`, `B_xor1`. -/
def xor1 (prev : BitVec 32) : BitVec 32 := prev ^^^ (prev <<< 13)

/-- The wires `R_xor2`, `G_xor2`, `B_xor2`. -/
def xor2 (prev : BitVec 32) : BitVec 32 := xor1 prev ^^^ (xor1 prev >>> 7)

/-- One channel's next value: `reseed` when the register holds zero, the xorshift otherwise. -/
def nextPrev (reseed prev : BitVec 32) : BitVec 32 :=
  if prev = 0 then reseed else xor2 prev ^^^ (xor2 prev <<< 5)

/-- One rise of `clk && wren`. -/
def step (e : Encryptor) : Encryptor where
  rPrev := nextPrev 33 e.rPrev
  gPrev := nextPrev 63 e.gPrev
  bPrev := nextPrev 11 e.bPrev

/-- `R_OUT`, `G_OUT`, `B_OUT`. -/
def out (e : Encryptor) : EncryptorOut where
  rOut := e.rPrev.setWidth 8
  gOut := e.gPrev.setWidth 8
  bOut := e.bPrev.setWidth 8

end Encryptor

/-- The RGB565 mask `{R_OUT[4:0], G_OUT[5:0], B_OUT[4:0]}` that `Image_Input` xors onto a pixel. -/
def EncryptorOut.mask (e : EncryptorOut) : BitVec 16 :=
  e.rOut.setWidth 5 ++ e.gOut.setWidth 6 ++ e.bOut.setWidth 5

end VideoEncryption
