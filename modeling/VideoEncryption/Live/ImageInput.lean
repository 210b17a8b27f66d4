import VideoEncryption.Clocked.Machine
import VideoEncryption.Live.Encryptor

/-!
# The capture side of `Image_Input`

`Image_mod.sv`: the four-state machine that follows the camera's frame sync, the block clocked by
`Cam_pclk` that assembles two-byte RGB565 pixels and registers a write for each of them, and the
three 64K-word `VRAM` banks behind that write port.

The write port is registered: address, data and write enable computed at one rising `Cam_pclk` edge
reach the memories at the next one. `stores` is therefore read off the registers *before* an edge.
-/

namespace VideoEncryption
namespace Live

/-! ### Registers and inputs -/

/-- The states of `Image_Input`. -/
inductive Fsm
  | sleep
  | prep
  | prep2
  | run
deriving DecidableEq, Repr

/-- The inputs of `Image_Input` sampled at a rising `Cam_pclk` edge. -/
structure CamPort where
  reset : Bool
  run : Bool
  camVsync : Bool
  camHref : Bool
  camData : BitVec 8
deriving DecidableEq, Repr

/-- The registers of `Image_Input` in the `Cam_pclk` domain. -/
structure ImageInput where
  state : Fsm
  counter : BitVec 21
  byteNum : Bool
  horizontalCounter : BitVec 20
  verticalCounter : BitVec 20
  temp : BitVec 8
  vramWren : Bool
  vramWraddress : BitVec 18
  vramIn : BitVec 16
  encryptionTrigger : Bool
deriving DecidableEq, Repr

/-- The registers at power-up. -/
def powerUp : ImageInput where
  state := .sleep
  counter := 0
  byteNum := false
  horizontalCounter := 0
  verticalCounter := 0
  temp := 0
  vramWren := false
  vramWraddress := 0
  vramIn := 0
  encryptionTrigger := false

/-! ### One rising `Cam_pclk` edge -/

/-- The state transition decision module. -/
def nextState (s : Fsm) (p : CamPort) : Fsm :=
  match s with
  | .sleep => if p.run then .prep else .sleep
  | .prep => if p.camVsync then .prep2 else .prep
  | .prep2 => if p.camVsync then .prep2 else .run
  | .run => if p.camVsync then .prep else .run

/-- `PREP2` is entered from `PREP` alone. -/
theorem of_nextState_prep2 {s : Fsm} {p : CamPort} (h : nextState s p = .prep2) :
    s = .prep ∨ s = .prep2 := by
  cases s <;> simp only [nextState] at h <;> split at h <;> simp_all

/-- `RUN` is entered from `PREP2` alone, on the sync going low. -/
theorem of_nextState_run {s : Fsm} {p : CamPort} (h : nextState s p = .run) :
    s = .prep2 ∨ s = .run := by
  cases s <;> simp only [nextState] at h <;> split at h <;> simp_all

namespace ImageInput

/-- The branch of `RUN` that takes the first byte of a pixel. -/
def takeFirst (s : ImageInput) (p : CamPort) : ImageInput :=
  { s with
    vramWren := false
    encryptionTrigger := true
    temp := p.camData }

/-- The write registered with the second byte of a pixel. Rows from 240 on enable a write of zero
without setting the address. -/
def registerWrite (s : ImageInput) (p : CamPort) (e : EncryptorOut) : ImageInput :=
  if s.verticalCounter < 240 then
    { s with
      vramWren := true
      vramWraddress := (s.horizontalCounter + s.verticalCounter * 640).setWidth 18
      vramIn :=
        if s.horizontalCounter < 320 then s.temp ++ p.camData
        else (s.temp ++ p.camData) ^^^ e.mask }
  else
    { s with
      vramWren := true
      vramIn := 0 }

/-- The raster position of the next pixel. -/
def advance (s : ImageInput) : ImageInput :=
  if s.horizontalCounter = 639 then
    { s with
      horizontalCounter := 0
      verticalCounter := s.verticalCounter + 1 }
  else
    { s with horizontalCounter := s.horizontalCounter + 1 }

/-- The branch of `RUN` that takes the second byte of a pixel. -/
def takeSecond (s : ImageInput) (p : CamPort) (e : EncryptorOut) : ImageInput :=
  { (s.registerWrite p e).advance with
    encryptionTrigger := false
    counter := s.counter + 1 }

/-- The capture block: everything but the state register. -/
def capture (s : ImageInput) (p : CamPort) (e : EncryptorOut) : ImageInput :=
  match s.state with
  | .sleep => s
  | .prep =>
    { s with
      counter := 0
      byteNum := false
      horizontalCounter := 0
      verticalCounter := 0
      temp := 0
      vramWren := false
      encryptionTrigger := false }
  | .prep2 => s
  | .run =>
    if p.camHref then
      { (if s.byteNum then s.takeSecond p e else s.takeFirst p) with byteNum := !s.byteNum }
    else
      { s with vramWren := false }

/-- A rising `Cam_pclk` edge. -/
def pclk (s : ImageInput) (p : CamPort) (e : EncryptorOut) : ImageInput :=
  { s.capture p e with state := if p.reset then .sleep else nextState s.state p }

/-- A rising `Reset` edge reaches the state register alone. -/
def posedgeReset (s : ImageInput) : ImageInput :=
  { s with state := .sleep }

end ImageInput

/-! ### The VRAM banks -/

/-- A store performed on one of the VRAM banks. -/
structure Store where
  bank : Fin 3
  word : BitVec 16
  data : BitVec 16
deriving DecidableEq, Repr

/-- The contents of `VideoMemory`, `VideoMemory2` and `VideoMemory3`. -/
abbrev Vram := Fin 3 → BitVec 16 → BitVec 16

/-- The write enable of bank `b`: `VRAM_wren && (VRAM_wraddress[17:16] == b)`. -/
def bankWren (s : ImageInput) (b : Fin 3) : Bool :=
  s.vramWren && s.vramWraddress.extractLsb' 16 2 == BitVec.ofNat 2 b

/-- The stores the banks perform at a rising `Cam_pclk` edge. -/
def stores (s : ImageInput) : List Store :=
  (List.finRange 3).filterMap fun b =>
    if bankWren s b then some ⟨b, s.vramWraddress.extractLsb' 0 16, s.vramIn⟩ else none

/-- Perform one store. -/
def Vram.store (v : Vram) (st : Store) : Vram :=
  Function.update v st.bank (Function.update (v st.bank) st.word st.data)

/-- Perform a list of stores, first one first. -/
def Vram.storeAll (v : Vram) (sts : List Store) : Vram :=
  sts.foldl Vram.store v

/-- The word at flat address `k`: word `k mod 65536` of bank `k / 65536`. -/
def Vram.flat (v : Vram) (k : ℕ) : BitVec 16 :=
  v (Fin.ofNat 3 (k / 65536)) (BitVec.ofNat 16 (k % 65536))

/-- The store of `d` at flat address `k`. -/
def flatStore (k : ℕ) (d : BitVec 16) : Store :=
  ⟨Fin.ofNat 3 (k / 65536), BitVec.ofNat 16 (k % 65536), d⟩

/-! ### Histories -/

/-- What `Image_Input` sees at one rising `Cam_pclk` edge: its inputs and the encryptor's. -/
structure CamTick where
  port : CamPort
  enc : EncryptorOut
deriving DecidableEq, Repr

/-- The two edges the `Cam_pclk` domain is sensitive to. -/
inductive Edge
  | reset
  | pclk (t : CamTick)
deriving DecidableEq, Repr

/-- One edge. -/
def edge (s : ImageInput) : Edge → ImageInput
  | .reset => s.posedgeReset
  | .pclk t => s.pclk t.port t.enc

/-- The stores performed at one edge: the banks are clocked by `Cam_pclk`. -/
def edgeStores (s : ImageInput) : Edge → List Store
  | .reset => []
  | .pclk _ => stores s

end Live
end VideoEncryption
