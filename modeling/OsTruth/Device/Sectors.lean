/-
`ide_read` and `ide_write` of `device/ide.c` with the registers of their channel.

Who waits for whom is in `Device/Ide.lean`: here a call has the channel for itself, and a
`sema_down` is left out, because the disk answers every command.  The device is an ATA channel:
a command takes the registers as they are, a count of 0 stands for 256, and the data port moves
whole sectors from the programmed address on until the command is served.
-/
import OsTruth.Fs.Layout

namespace OsTruth

open ByteString Fallible

/-! ## The device -/

def bitStatBusy : UInt8 := 0x80
def bitStatDrdy : UInt8 := 0x40
def bitStatDrq : UInt8 := 0x8
def bitDevMbs : UInt8 := 0xa0
def bitDevLba : UInt8 := 0x40
def bitDevDev : UInt8 := 0x10
def cmdReadSector : UInt8 := 0x20
def cmdWriteSector : UInt8 := 0x30

/-- What a command still has to move. -/
structure Transfer where
  cmd : UInt8
  slave : Bool
  lba : Nat
  left : Nat

/-- A sector that went through the data port. -/
structure Moved where
  cmd : UInt8
  slave : Bool
  lba : Nat
  deriving DecidableEq, Repr

/-- A channel with the contents of its two disks.  After a command the status is busy for
`latency` polls. -/
structure Ata where
  sectCnt : UInt8
  lbaL : UInt8
  lbaM : UInt8
  lbaH : UInt8
  dev : UInt8
  disk : Bool → Bytes
  pending : Option Transfer
  busy : Nat
  latency : Nat
  moved : List Moved

inductive AtaReg
  | sectCnt
  | lbaL
  | lbaM
  | lbaH
  | dev
  | cmd

namespace Ata

def address (d : Ata) : Nat :=
  d.lbaL.toNat + 256 * d.lbaM.toNat + 65536 * d.lbaH.toNat + 16777216 * (d.dev.toNat % 16)

def slave (d : Ata) : Bool := d.dev &&& bitDevDev ≠ 0

def count (d : Ata) : Nat := if d.sectCnt = 0 then 256 else d.sectCnt.toNat

/-- A write to the command register.  The sectors of the last command have to be moved. -/
def command (d : Ata) (cmd : UInt8) : Except Fault Ata :=
  if d.pending.isNone ∧ (cmd = cmdReadSector ∨ cmd = cmdWriteSector) then
    .ok { d with pending := some ⟨cmd, d.slave, d.address, d.count⟩, busy := d.latency }
  else .error .undefined

def status (d : Ata) : UInt8 :=
  if 0 < d.busy then bitStatBusy
  else if d.pending.isSome then bitStatDrdy ||| bitStatDrq
  else bitStatDrdy

/-- `n` sectors of a transfer are moved. -/
def move (d : Ata) (t : Transfer) (n : Nat) : Ata :=
  { d with
    pending := if t.left = n then none else some { t with lba := t.lba + n, left := t.left - n }
    moved := d.moved ++ (List.range n).map fun k => ⟨t.cmd, t.slave, t.lba + k⟩ }

/-- `d` with `len` bytes of a disk written. -/
def store (d : Ata) (slave : Bool) (off len : Nat) (data : Bytes) : Ata :=
  { d with disk := fun b => if b = slave then splice (d.disk b) off len data else d.disk b }

end Ata

/-! ## Ports -/

abbrev Driver := StateT Ata (Except Fault)

namespace Driver

/-- An `outb` to a register of the channel. -/
def outb (reg : AtaReg) (v : UInt8) : Driver Unit := do
  let d ← get
  match reg with
  | .sectCnt => set { d with sectCnt := v }
  | .lbaL => set { d with lbaL := v }
  | .lbaM => set { d with lbaM := v }
  | .lbaH => set { d with lbaH := v }
  | .dev => set { d with dev := v }
  | .cmd => do set (← StateT.lift (d.command v))

/-- `inb(reg_status(channel))`.  Time goes on behind it. -/
def inbStatus : Driver UInt8 := do
  let d ← get
  set { d with busy := d.busy - 1 }
  pure d.status

/-- The transfer in which the data port moves `words` words. -/
def transferOf (cmd : UInt8) (words : Nat) : Driver Transfer := do
  let d ← get
  match d.pending with
  | none => throw .undefined
  | some t =>
      if t.cmd = cmd ∧ words % 256 = 0 ∧ words / 256 ≤ t.left then pure t
      else throw .undefined

/-- `insw(reg_data(channel), buf + off, words)`. -/
def insw (buf : Buf) (off words : Nat) : Driver Buf := do
  let t ← transferOf cmdReadSector words
  let d ← get
  let buf ← StateT.lift (buf.put off (2 * words) (view (d.disk t.slave) (512 * t.lba)))
  set (d.move t (words / 256))
  pure buf

/-- `outsw(reg_data(channel), buf + off, words)`. -/
def outsw (buf : Buf) (off words : Nat) : Driver Unit := do
  let t ← transferOf cmdWriteSector words
  let d ← get
  if off + 2 * words ≤ buf.size then
    set ((d.store t.slave (512 * t.lba) (2 * words) (view buf.data off)).move t (words / 256))
  else throw .undefined

/-! ## Functions -/

def selectDisk (devNo : UInt8) : Driver Unit :=
  outb .dev (if devNo = 1 then bitDevMbs ||| bitDevLba ||| bitDevDev else bitDevMbs ||| bitDevLba)

def selectSector (devNo : UInt8) (lba : UInt32) (secCnt : UInt8) : Driver Unit := do
  StateT.lift (assert (lba ≤ maxLba))
  outb .sectCnt secCnt
  outb .lbaL lba.toUInt8
  outb .lbaM (lba >>> 8).toUInt8
  outb .lbaH (lba >>> 16).toUInt8
  outb .dev (bitDevMbs ||| bitDevLba ||| (if devNo = 1 then bitDevDev else 0) |||
    (lba >>> 24).toUInt8)

def cmdOut (cmd : UInt8) : Driver Unit := outb .cmd cmd

/-- The size in bytes that `read_from_sector` and `write2sector` compute. -/
def sizeInByte (secCnt : UInt8) : UInt32 :=
  if secCnt = 0 then 256 * 512 else secCnt.toUInt32 * 512

def readFromSector (buf : Buf) (off : Nat) (secCnt : UInt8) : Driver Buf :=
  insw buf off (sizeInByte secCnt / 2).toNat

def write2sector (buf : Buf) (off : Nat) (secCnt : UInt8) : Driver Unit :=
  outsw buf off (sizeInByte secCnt / 2).toNat

/-- The loop of `busy_wait`.  `-=` binds less than `>=`, so the limit goes down by
`10 >= 0`, which is 1. -/
def busyWaitLoop : Nat → UInt16 → Driver Bool
  | 0, _ => throw .undefined
  | left + 1, timeLimit => do
      let timeLimit := timeLimit - 1
      if timeLimit ≠ 0 then do
        let status ← inbStatus
        if status &&& bitStatBusy = 0 then do
          let status ← inbStatus
          pure (status &&& bitStatDrq ≠ 0 : Bool)
        else busyWaitLoop left timeLimit
      else pure false

def busyWait : Driver Bool := busyWaitLoop 30000 30000

def readRound (devNo : UInt8) (lba : UInt32) (buf : Buf) (secsDone secsOp : UInt32) :
    Driver Buf := do
  selectSector devNo (lba + secsDone) secsOp.toUInt8
  cmdOut cmdReadSector
  let ready ← busyWait
  StateT.lift (assert (ready = true))
  readFromSector buf (secsDone * 512).toNat secsOp.toUInt8

def writeRound (devNo : UInt8) (lba : UInt32) (buf : Buf) (secsDone secsOp : UInt32) :
    Driver Unit := do
  selectSector devNo (lba + secsDone) secsOp.toUInt8
  cmdOut cmdWriteSector
  let ready ← busyWait
  StateT.lift (assert (ready = true))
  write2sector buf (secsDone * 512).toNat secsOp.toUInt8

/-- The sectors of the next round. -/
def secsOp (secCnt secsDone : UInt32) : UInt32 :=
  if secsDone + 256 ≤ secCnt then 256 else secCnt - secsDone

/-- The loop of `ide_read`.  Each round reads a sector at least. -/
def readLoop (devNo : UInt8) (lba secCnt : UInt32) : Nat → Buf → UInt32 → Driver Buf
  | 0, _, _ => throw .undefined
  | left + 1, buf, secsDone =>
      if secsDone < secCnt then do
        let op := secsOp secCnt secsDone
        let buf ← readRound devNo lba buf secsDone op
        readLoop devNo lba secCnt left buf (secsDone + op)
      else pure buf

def writeLoop (devNo : UInt8) (lba secCnt : UInt32) (buf : Buf) : Nat → UInt32 → Driver Unit
  | 0, _ => throw .undefined
  | left + 1, secsDone =>
      if secsDone < secCnt then do
        let op := secsOp secCnt secsDone
        writeRound devNo lba buf secsDone op
        writeLoop devNo lba secCnt buf left (secsDone + op)
      else pure ()

def ideRead (devNo : UInt8) (lba : UInt32) (buf : Buf) (secCnt : UInt32) : Driver Buf := do
  StateT.lift (assert (lba ≤ maxLba))
  StateT.lift (assert (secCnt > 0))
  selectDisk devNo
  readLoop devNo lba secCnt (secCnt.toNat + 1) buf 0

def ideWrite (devNo : UInt8) (lba : UInt32) (buf : Buf) (secCnt : UInt32) : Driver Unit := do
  StateT.lift (assert (lba ≤ maxLba))
  StateT.lift (assert (secCnt > 0))
  selectDisk devNo
  writeLoop devNo lba secCnt buf (secCnt.toNat + 1) 0

end Driver

/-! ## Registers -/

def sectors (secCnt : UInt8) : Nat := if secCnt = 0 then 256 else secCnt.toNat

section

variable {d d' : Ata} {devNo c : UInt8} {lba secCnt op done : UInt32} {buf : Buf} {off left : Nat}
variable {timeLimit : UInt16} {cmd : UInt8} {slave : Bool}

theorem sectors_toUInt8 (hpos : 0 < op.toNat) (hle : op.toNat ≤ 256) :
    sectors op.toUInt8 = op.toNat := by
  have hnat : op.toUInt8.toNat = op.toNat % 256 := UInt32.toNat_toUInt8 op
  have hzero : op.toUInt8 = 0 ↔ op.toUInt8.toNat = 0 := by
    rw [← UInt8.toNat_inj]
    rfl
  unfold sectors
  by_cases h : op.toNat = 256
  · rw [if_pos (hzero.mpr (by omega)), h]
  · rw [if_neg (fun h0 => by have := hzero.mp h0; omega)]
    omega

/-- The words that go through the port are 256 for each sector. -/
theorem sizeInByte_words (c : UInt8) : (Driver.sizeInByte c / 2).toNat = 256 * sectors c := by
  have hc := c.toNat_lt
  unfold Driver.sizeInByte sectors
  by_cases hzero : c = 0
  · rw [if_pos hzero, if_pos hzero]
    rfl
  · have h512 : (512 : UInt32).toNat = 512 := rfl
    have h2 : (2 : UInt32).toNat = 2 := rfl
    rw [if_neg hzero, if_neg hzero, UInt32.toNat_div, UInt32.toNat_mul, UInt8.toNat_toUInt32, h512,
      h2]
    omega

/-- The registers behind `select_sector`. -/
def Ata.programmed (d : Ata) (devNo : UInt8) (lba : UInt32) (secCnt : UInt8) : Ata :=
  { d with
    sectCnt := secCnt
    lbaL := lba.toUInt8
    lbaM := (lba >>> 8).toUInt8
    lbaH := (lba >>> 16).toUInt8
    dev := bitDevMbs ||| bitDevLba ||| (if devNo = 1 then bitDevDev else 0) |||
      (lba >>> 24).toUInt8 }

theorem selectSector_run (h : lba ≤ maxLba) :
    (Driver.selectSector devNo lba c).run d = .ok ((), d.programmed devNo lba c) := by
  unfold Driver.selectSector
  rw [assert, if_pos h]
  rfl

theorem shiftRight_24 (h : lba ≤ maxLba) : (lba >>> 24).toUInt8 = 0 := by
  have hle : lba.toNat ≤ maxLba.toNat := UInt32.le_iff_toNat_le.mp h
  have hmax : maxLba.toNat = 163839 := rfl
  apply UInt8.toNat_inj.mp
  rw [UInt32.toNat_toUInt8, UInt32.toNat_shiftRight]
  show lba.toNat >>> 24 % 2 ^ 8 = 0
  rw [Nat.shiftRight_eq_div_pow]
  omega

theorem programmed_dev (h : lba ≤ maxLba) :
    (d.programmed devNo lba c).dev = if devNo = 1 then 0xf0 else 0xe0 := by
  show bitDevMbs ||| bitDevLba ||| (if devNo = 1 then bitDevDev else 0) ||| (lba >>> 24).toUInt8 = _
  rw [shiftRight_24 h]
  by_cases hdev : devNo = 1
  · rw [if_pos hdev, if_pos hdev]
    rfl
  · rw [if_neg hdev, if_neg hdev]
    rfl

theorem programmed_address (h : lba ≤ maxLba) :
    (d.programmed devNo lba c).address = lba.toNat := by
  have hle : lba.toNat ≤ maxLba.toNat := UInt32.le_iff_toNat_le.mp h
  have hmax : maxLba.toNat = 163839 := rfl
  have hdev : (d.programmed devNo lba c).dev.toNat % 16 = 0 := by
    rw [programmed_dev h]
    by_cases hone : devNo = 1
    · rw [if_pos hone]
      rfl
    · rw [if_neg hone]
      rfl
  have hM : (lba >>> 8).toUInt8.toNat = lba.toNat / 256 % 256 := by
    rw [UInt32.toNat_toUInt8, UInt32.toNat_shiftRight]
    show lba.toNat >>> 8 % 2 ^ 8 = _
    rw [Nat.shiftRight_eq_div_pow]
  have hH : (lba >>> 16).toUInt8.toNat = lba.toNat / 65536 % 256 := by
    rw [UInt32.toNat_toUInt8, UInt32.toNat_shiftRight]
    show lba.toNat >>> 16 % 2 ^ 8 = _
    rw [Nat.shiftRight_eq_div_pow]
  have hL : lba.toUInt8.toNat = lba.toNat % 256 := UInt32.toNat_toUInt8 lba
  rw [Ata.address, hdev]
  show lba.toUInt8.toNat + 256 * (lba >>> 8).toUInt8.toNat +
    65536 * (lba >>> 16).toUInt8.toNat + 16777216 * 0 = lba.toNat
  rw [hL, hM, hH]
  omega

theorem programmed_slave (h : lba ≤ maxLba) :
    (d.programmed devNo lba c).slave = decide (devNo = 1) := by
  unfold Ata.slave
  rw [programmed_dev h]
  by_cases hone : devNo = 1
  · rw [if_pos hone, decide_eq_true hone]
    rfl
  · rw [if_neg hone, decide_eq_false hone]
    rfl

/-! ## One command -/

/-- The device is ready for a command, and it will be before the driver gives up. -/
structure Ata.Ready (d : Ata) : Prop where
  served : d.pending = none
  prompt : d.latency < 29999

/-- The states in which a command waits for its sectors. -/
def Ata.sent (d : Ata) (cmd devNo : UInt8) (lba : UInt32) (n : Nat) : Ata :=
  { d with pending := some ⟨cmd, decide (devNo = 1), lba.toNat, n⟩, busy := d.latency }

theorem cmdOut_run (hready : d.Ready) (hcmd : cmd = cmdReadSector ∨ cmd = cmdWriteSector)
    (h : lba ≤ maxLba) :
    (Driver.cmdOut cmd).run (d.programmed devNo lba c) =
      .ok ((), (d.programmed devNo lba c).sent cmd devNo lba (sectors c)) := by
  have hpend : (d.programmed devNo lba c).pending.isNone := by
    show d.pending.isNone
    rw [hready.served]
    rfl
  have hrun : (d.programmed devNo lba c).command cmd =
      .ok ((d.programmed devNo lba c).sent cmd devNo lba (sectors c)) := by
    rw [Ata.command, if_pos ⟨hpend, hcmd⟩, programmed_address h, programmed_slave h]
    rfl
  show ((StateT.lift ((d.programmed devNo lba c).command cmd) : Driver Ata) >>= _).run _ = _
  rw [hrun]
  rfl

/-- The poll behind the last busy one finds data. -/
theorem busyWaitLoop_run (hpend : d.pending.isSome) (htime : d.busy + 1 < timeLimit.toNat)
    (hleft : d.busy < left) :
    (Driver.busyWaitLoop left timeLimit).run d = .ok (true, { d with busy := 0 }) := by
  induction left generalizing d timeLimit with
  | zero => omega
  | succ left ih =>
      have h1 : (1 : UInt16).toNat = 1 := rfl
      have hle : (1 : UInt16) ≤ timeLimit := UInt16.le_iff_toNat_le.mpr (by omega)
      have hnat : (timeLimit - 1).toNat = timeLimit.toNat - 1 := UInt16.toNat_sub_of_le _ _ hle
      have hne : timeLimit - 1 ≠ 0 := by
        intro h0
        rw [h0] at hnat
        have hzero : (0 : UInt16).toNat = 0 := rfl
        omega
      have hloop : (Driver.busyWaitLoop (left + 1) timeLimit).run d =
          (if d.status &&& bitStatBusy = 0 then do
            let status ← Driver.inbStatus
            pure (status &&& bitStatDrq ≠ 0 : Bool)
          else Driver.busyWaitLoop left (timeLimit - 1)).run { d with busy := d.busy - 1 } := by
        rw [Driver.busyWaitLoop]
        show (if timeLimit - 1 ≠ 0 then _ else _ : Driver Bool).run d = _
        rw [if_pos hne]
        rfl
      rw [hloop]
      by_cases hbusy : 0 < d.busy
      · have hstatus : ¬d.status &&& bitStatBusy = 0 := by
          rw [Ata.status, if_pos hbusy]
          decide
        rw [if_neg hstatus]
        exact ih (d := { d with busy := d.busy - 1 }) hpend (by show d.busy - 1 + 1 < _; omega)
          (by show d.busy - 1 < left; omega)
      · have hzero : d.busy = 0 := by omega
        have hstatus : d.status = bitStatDrdy ||| bitStatDrq := by
          rw [Ata.status, if_neg hbusy, if_pos hpend]
        have hsame : { d with busy := 0 } = d := by
          rw [← hzero]
        have hagain : Driver.inbStatus.run d = .ok (bitStatDrdy ||| bitStatDrq, d) := by
          rw [← hstatus, ← hsame]
          rfl
        have hready : decide ((bitStatDrdy ||| bitStatDrq) &&& bitStatDrq ≠ 0) = true := by decide
        rw [hstatus, if_pos (by decide), hzero, hsame, StateT.run_bind, hagain]
        show Except.ok (decide ((bitStatDrdy ||| bitStatDrq) &&& bitStatDrq ≠ 0), d) = _
        rw [hready]

/-- The sectors of a command in the order in which they are moved. -/
def sectorsFrom (cmd : UInt8) (slave : Bool) (lba n : Nat) : List Moved :=
  (List.range n).map fun k => ⟨cmd, slave, lba + k⟩

theorem sectorsFrom_add (cmd : UInt8) (slave : Bool) (lba m n : Nat) :
    sectorsFrom cmd slave lba (m + n) =
      sectorsFrom cmd slave lba m ++ sectorsFrom cmd slave (lba + m) n := by
  unfold sectorsFrom
  rw [List.range_add, List.map_append, List.map_map]
  simp [Function.comp_def, Nat.add_assoc]

/-- What a command leaves: the content of the disks and the sectors that it moved. -/
structure Ata.Moves (d d' : Ata) (disk : Bool → Bytes) (moved : List Moved) : Prop where
  served : d'.pending = none
  latency : d'.latency = d.latency
  disk : d'.disk = disk
  moved : d'.moved = d.moved ++ moved

theorem busyWait_sent (hready : d.Ready) (n : Nat) :
    Driver.busyWait.run (d.sent cmd devNo lba n) =
      .ok (true, { d.sent cmd devNo lba n with busy := 0 }) := by
  have hprompt := hready.prompt
  have h30000 : (30000 : UInt16).toNat = 30000 := rfl
  have hbusy : (d.sent cmd devNo lba n).busy = d.latency := rfl
  exact busyWaitLoop_run rfl (by rw [hbusy, h30000]; omega) (by rw [hbusy]; omega)

theorem transferOf_run {t : Transfer} {n : Nat} (hpend : d.pending = some t) (hcmd : t.cmd = cmd)
    (hn : n ≤ t.left) : (Driver.transferOf cmd (256 * n)).run d = .ok (t, d) := by
  have hmod : 256 * n % 256 = 0 := by omega
  have hdiv : 256 * n / 256 ≤ t.left := by omega
  unfold Driver.transferOf
  rw [StateT.run_bind]
  show (StateT.run (match d.pending with
    | none => _
    | some t => _) d) = _
  rw [hpend]
  show (if t.cmd = cmd ∧ 256 * n % 256 = 0 ∧ 256 * n / 256 ≤ t.left then pure t
    else throw .undefined : Driver Transfer).run d = _
  rw [if_pos ⟨hcmd, hmod, hdiv⟩]
  rfl

/-- The data port stores the next sectors of a read in the buffer. -/
theorem insw_run {t : Transfer} {n : Nat} (hpend : d.pending = some t)
    (hcmd : t.cmd = cmdReadSector) (hn : n ≤ t.left) (hroom : off + 512 * n ≤ buf.size) :
    (Driver.insw buf off (256 * n)).run d = .ok
      (⟨buf.size, splice buf.data off (512 * n) (view (d.disk t.slave) (512 * t.lba))⟩,
        d.move t n) := by
  have hbytes : 2 * (256 * n) = 512 * n := by omega
  have hdiv : 256 * n / 256 = n := by omega
  unfold Driver.insw
  rw [StateT.run_bind, transferOf_run hpend hcmd hn, hbytes, hdiv]
  have hput : buf.put off (512 * n) (view (d.disk t.slave) (512 * t.lba)) = .ok _ := if_pos hroom
  show (do
    let buf ← StateT.lift (buf.put off (512 * n) (view (d.disk t.slave) (512 * t.lba)))
    set (d.move t n)
    pure buf : Driver Buf).run d = _
  rw [hput]
  rfl

/-- The data port writes the next sectors of a write to the disk. -/
theorem outsw_run {t : Transfer} {n : Nat} (hpend : d.pending = some t)
    (hcmd : t.cmd = cmdWriteSector) (hn : n ≤ t.left) (hroom : off + 512 * n ≤ buf.size) :
    (Driver.outsw buf off (256 * n)).run d = .ok
      ((), (d.store t.slave (512 * t.lba) (512 * n) (view buf.data off)).move t n) := by
  have hbytes : 2 * (256 * n) = 512 * n := by omega
  have hdiv : 256 * n / 256 = n := by omega
  unfold Driver.outsw
  rw [StateT.run_bind, transferOf_run hpend hcmd hn, hbytes, hdiv]
  show (if off + 512 * n ≤ buf.size then set _ else throw .undefined : Driver Unit).run d = _
  rw [if_pos hroom]
  rfl

/-- The place of a round in the buffer. -/
theorem toNat_mul_512 (h : 512 * done.toNat < 2 ^ 32) : (done * 512).toNat = 512 * done.toNat := by
  have h512 : (512 : UInt32).toNat = 512 := rfl
  rw [UInt32.toNat_mul, h512]
  omega

theorem readRound_returns (hready : d.Ready) (hlba : lba + done ≤ maxLba) (hpos : 0 < op.toNat)
    (hop : op.toNat ≤ 256) (hoff : (done * 512).toNat = off)
    (hroom : off + 512 * op.toNat ≤ buf.size) :
    Returns (Driver.readRound devNo lba buf done op) d fun buf' d' =>
      buf' = ⟨buf.size, splice buf.data off (512 * op.toNat)
        (view (d.disk (devNo = 1)) (512 * (lba + done).toNat))⟩ ∧
      d.Moves d' d.disk
        (sectorsFrom cmdReadSector (devNo = 1) (lba + done).toNat op.toNat) := by
  have hsectors := sectors_toUInt8 hpos hop
  have hwords := sizeInByte_words op.toUInt8
  have hprog : (d.programmed devNo (lba + done) op.toUInt8).Ready := ⟨hready.served, hready.prompt⟩
  rw [hsectors] at hwords
  rw [Driver.readRound, Returns, Wp.bind, Wp.of_run (selectSector_run hlba), Wp.bind,
    Wp.of_run (cmdOut_run hready (Or.inl rfl) hlba), hsectors, Wp.bind,
    Wp.of_run (busyWait_sent hprog op.toNat), Wp.bind]
  show Wp (Driver.readFromSector buf (done * 512).toNat op.toUInt8) _ _ _
  rw [Driver.readFromSector, hwords, hoff,
    Wp.of_run (insw_run (t := ⟨cmdReadSector, devNo = 1, (lba + done).toNat, op.toNat⟩) rfl rfl
      (Nat.le_refl op.toNat) hroom)]
  exact ⟨rfl, if_pos rfl, rfl, rfl, rfl⟩

theorem writeRound_returns (hready : d.Ready) (hlba : lba + done ≤ maxLba) (hpos : 0 < op.toNat)
    (hop : op.toNat ≤ 256) (hoff : (done * 512).toNat = off)
    (hroom : off + 512 * op.toNat ≤ buf.size) :
    Returns (Driver.writeRound devNo lba buf done op) d fun _ d' =>
      d.Moves d' (d.store (devNo = 1) (512 * (lba + done).toNat) (512 * op.toNat)
        (view buf.data off)).disk
        (sectorsFrom cmdWriteSector (devNo = 1) (lba + done).toNat op.toNat) := by
  have hsectors := sectors_toUInt8 hpos hop
  have hwords := sizeInByte_words op.toUInt8
  have hprog : (d.programmed devNo (lba + done) op.toUInt8).Ready := ⟨hready.served, hready.prompt⟩
  rw [hsectors] at hwords
  rw [Driver.writeRound, Returns, Wp.bind, Wp.of_run (selectSector_run hlba), Wp.bind,
    Wp.of_run (cmdOut_run hready (Or.inr rfl) hlba), hsectors, Wp.bind,
    Wp.of_run (busyWait_sent hprog op.toNat), Wp.bind]
  show Wp (Driver.write2sector buf (done * 512).toNat op.toUInt8) _ _ _
  rw [Driver.write2sector, hwords, hoff,
    Wp.of_run (outsw_run (t := ⟨cmdWriteSector, devNo = 1, (lba + done).toNat, op.toNat⟩) rfl rfl
      (Nat.le_refl op.toNat) hroom)]
  exact ⟨if_pos rfl, rfl, rfl, rfl⟩

/-! ## All rounds -/

namespace Ata.Moves

variable {e : Ata} {disk disk' : Bool → Bytes} {moved moved' : List Moved}

theorem ready (h : d.Moves d' disk moved) (hready : d.Ready) : d'.Ready where
  served := h.served
  prompt := h.latency ▸ hready.prompt

theorem trans (h : d.Moves d' disk moved) (h' : d'.Moves e disk' moved') :
    d.Moves e disk' (moved ++ moved') where
  served := h'.served
  latency := h'.latency.trans h.latency
  disk := h'.disk
  moved := by rw [h'.moved, h.moved, List.append_assoc]

end Ata.Moves

/-- Two stores one behind the other are one store. -/
theorem store_store {off m n : Nat} {data : Bytes} (h : d'.disk = (d.store slave off m data).disk) :
    (d'.store slave (off + m) n (view data m)).disk = (d.store slave off (m + n) data).disk := by
  funext b
  show (if b = slave then splice (d'.disk b) _ _ _ else d'.disk b) =
    if b = slave then splice (d.disk b) _ _ _ else d.disk b
  rw [h]
  by_cases hb : b = slave
  · rw [if_pos hb, if_pos hb, splice_add]
    show splice (if b = slave then _ else _) _ _ _ = _
    rw [if_pos hb]
  · rw [if_neg hb, if_neg hb]
    exact if_neg hb

/-- The next round in numbers: its sectors, its address and the start of the round behind. -/
theorem secsOp_spec (hrange : lba.toNat + secCnt.toNat ≤ maxLba.toNat + 1) (hlt : done < secCnt) :
    let op := Driver.secsOp secCnt done
    0 < op.toNat ∧ op.toNat ≤ 256 ∧ done.toNat + op.toNat ≤ secCnt.toNat ∧
      (done + op).toNat = done.toNat + op.toNat ∧ (lba + done).toNat = lba.toNat + done.toNat ∧
      lba + done ≤ maxLba ∧ (done * 512).toNat = 512 * done.toNat := by
  have hmax : maxLba.toNat = 163839 := rfl
  have h256 : (256 : UInt32).toNat = 256 := rfl
  have hlt' : done.toNat < secCnt.toNat := UInt32.lt_iff_toNat_lt.mp hlt
  have hsum : (done + 256).toNat = done.toNat + 256 := by
    rw [UInt32.toNat_add, h256]
    omega
  have hlba : (lba + done).toNat = lba.toNat + done.toNat := by
    rw [UInt32.toNat_add]
    omega
  have hop : (Driver.secsOp secCnt done).toNat = min 256 (secCnt.toNat - done.toNat) := by
    unfold Driver.secsOp
    by_cases hle : done + 256 ≤ secCnt
    · have hle' := UInt32.le_iff_toNat_le.mp hle
      rw [if_pos hle, h256]
      omega
    · have hle' : ¬(done + 256).toNat ≤ secCnt.toNat := fun h => hle (UInt32.le_iff_toNat_le.mpr h)
      rw [if_neg hle, UInt32.toNat_sub_of_le _ _ (UInt32.le_of_lt hlt)]
      omega
  refine ⟨by omega, by omega, by omega, ?_, hlba, UInt32.le_iff_toNat_le.mpr (by omega),
    toNat_mul_512 (by omega)⟩
  rw [UInt32.toNat_add]
  omega

/-- The sectors that are left are those of the next round and the rest. -/
theorem sects_split {done op secCnt : Nat} (hfit : done + op ≤ secCnt) :
    ∃ n, secCnt - done = op + n ∧ secCnt - (done + op) = n :=
  ⟨secCnt - (done + op), by omega, rfl⟩

theorem sects_done (hge : ¬done < secCnt) : secCnt.toNat - done.toNat = 0 := by
  have hge' : ¬done.toNat < secCnt.toNat := fun h => hge (UInt32.lt_iff_toNat_lt.mpr h)
  omega

/-- The loop reads the sectors that are left. -/
theorem readLoop_returns (hready : d.Ready)
    (hrange : lba.toNat + secCnt.toNat ≤ maxLba.toNat + 1) (hbuf : 512 * secCnt.toNat ≤ buf.size)
    (hdone : done.toNat ≤ secCnt.toNat) (hleft : secCnt.toNat - done.toNat < left) :
    Returns (Driver.readLoop devNo lba secCnt left buf done) d fun buf' d' =>
      buf' = ⟨buf.size, splice buf.data (512 * done.toNat) (512 * (secCnt.toNat - done.toNat))
        (view (d.disk (devNo = 1)) (512 * (lba.toNat + done.toNat)))⟩ ∧
      d.Moves d' d.disk (sectorsFrom cmdReadSector (devNo = 1) (lba.toNat + done.toNat)
        (secCnt.toNat - done.toNat)) := by
  induction left generalizing d buf done with
  | zero => omega
  | succ left ih =>
      rw [Driver.readLoop, Returns, Wp.ite]
      constructor
      · intro hlt
        obtain ⟨hpos, hop, hfit, hnext, hlba, hle, hoff⟩ := secsOp_spec hrange hlt
        have hround : Returns (Driver.readRound devNo lba buf done _) d _ :=
          readRound_returns hready hle hpos hop hoff (by omega)
        rw [hlba] at hround
        rw [Wp.bind]
        refine hround.call fun buf' d' h => ?_
        obtain ⟨hbuf', hmoves⟩ := h
        have hsize : buf'.size = buf.size := by rw [hbuf']
        have hrest : Returns (Driver.readLoop devNo lba secCnt left buf'
            (done + Driver.secsOp secCnt done)) d' _ :=
          ih (hmoves.ready hready) (hsize ▸ hbuf) (by omega) (by omega)
        rw [hnext, hmoves.disk] at hrest
        refine hrest.call fun buf'' d'' h => ?_
        obtain ⟨rfl, hmoves'⟩ := h
        have ⟨n, hall, hmore⟩ := sects_split hfit
        rw [hmore, ← Nat.add_assoc] at hmoves' ⊢
        refine ⟨?_, ?_⟩
        · rw [hsize, hbuf', hall, Nat.mul_add 512 _ n, splice_add, view_view, ← Nat.mul_add,
            ← Nat.mul_add]
        · rw [hall, sectorsFrom_add]
          exact hmoves.trans hmoves'
      · intro hge
        rw [Wp.pure, sects_done hge, Nat.mul_zero, splice_zero]
        exact ⟨rfl, hready.served, rfl, rfl, by simp [sectorsFrom]⟩

/-- The loop writes the sectors that are left. -/
theorem writeLoop_returns (hready : d.Ready)
    (hrange : lba.toNat + secCnt.toNat ≤ maxLba.toNat + 1) (hbuf : 512 * secCnt.toNat ≤ buf.size)
    (hdone : done.toNat ≤ secCnt.toNat) (hleft : secCnt.toNat - done.toNat < left) :
    Returns (Driver.writeLoop devNo lba secCnt buf left done) d fun _ d' =>
      d.Moves d' (d.store (devNo = 1) (512 * (lba.toNat + done.toNat))
          (512 * (secCnt.toNat - done.toNat)) (view buf.data (512 * done.toNat))).disk
        (sectorsFrom cmdWriteSector (devNo = 1) (lba.toNat + done.toNat)
          (secCnt.toNat - done.toNat)) := by
  induction left generalizing d done with
  | zero => omega
  | succ left ih =>
      rw [Driver.writeLoop, Returns, Wp.ite]
      constructor
      · intro hlt
        obtain ⟨hpos, hop, hfit, hnext, hlba, hle, hoff⟩ := secsOp_spec hrange hlt
        have hround : Returns (Driver.writeRound devNo lba buf done _) d _ :=
          writeRound_returns hready hle hpos hop hoff (by omega)
        rw [hlba] at hround
        rw [Wp.bind]
        refine hround.call fun _ d' hmoves => ?_
        have hrest : Returns (Driver.writeLoop devNo lba secCnt buf left
            (done + Driver.secsOp secCnt done)) d' _ :=
          ih (hmoves.ready hready) (by omega) (by omega)
        rw [hnext] at hrest
        refine hrest.call fun _ d'' hmoves' => ?_
        have ⟨n, hall, hmore⟩ := sects_split hfit
        rw [hmore, ← Nat.add_assoc, Nat.mul_add 512 _ (Driver.secsOp secCnt done).toNat,
          Nat.mul_add 512 done.toNat, ← view_view, store_store hmoves.disk, ← Nat.mul_add] at hmoves'
        rw [hall, sectorsFrom_add]
        exact hmoves.trans hmoves'
      · intro hge
        rw [Wp.pure, sects_done hge, Nat.mul_zero]
        refine ⟨hready.served, rfl, ?_, by simp [sectorsFrom]⟩
        simp [Ata.store, splice_zero]

/-! ## Both calls -/

/-- The registers behind `select_disk`. -/
def Ata.selected (d : Ata) (devNo : UInt8) : Ata :=
  { d with
    dev := if devNo = 1 then bitDevMbs ||| bitDevLba ||| bitDevDev else bitDevMbs ||| bitDevLba }

theorem selectDisk_run : (Driver.selectDisk devNo).run d = .ok ((), d.selected devNo) := rfl

theorem selected_ready (hready : d.Ready) : (d.selected devNo).Ready :=
  ⟨hready.served, hready.prompt⟩

/-- A range of sectors starts inside the disk. -/
theorem le_maxLba (hpos : 0 < secCnt) (hrange : lba.toNat + secCnt.toNat ≤ maxLba.toNat + 1) :
    lba ≤ maxLba := by
  have hpos' : 0 < secCnt.toNat := UInt32.lt_iff_toNat_lt.mp hpos
  exact UInt32.le_iff_toNat_le.mpr (by omega)

theorem ideRead_returns (hready : d.Ready) (hpos : 0 < secCnt)
    (hrange : lba.toNat + secCnt.toNat ≤ maxLba.toNat + 1)
    (hbuf : 512 * secCnt.toNat ≤ buf.size) :
    Returns (Driver.ideRead devNo lba buf secCnt) d fun buf' d' =>
      buf' = ⟨buf.size, splice buf.data 0 (512 * secCnt.toNat)
        (view (d.disk (devNo = 1)) (512 * lba.toNat))⟩ ∧
      d.Moves d' d.disk (sectorsFrom cmdReadSector (devNo = 1) lba.toNat secCnt.toNat) := by
  have hzero : (0 : UInt32).toNat = 0 := rfl
  have hassert : assert (lba ≤ maxLba) = .ok () := if_pos (le_maxLba hpos hrange)
  have hassert' : assert (secCnt > 0) = .ok () := if_pos hpos
  rw [Driver.ideRead, hassert, hassert', Returns, Wp.bind, Wp.lift_pure, Wp.bind, Wp.lift_pure,
    Wp.bind, Wp.of_run selectDisk_run]
  have hloop : Returns (Driver.readLoop devNo lba secCnt (secCnt.toNat + 1) buf 0)
      (d.selected devNo) _ :=
    readLoop_returns (selected_ready hready) hrange hbuf (by omega) (by omega)
  rw [hzero] at hloop
  exact hloop.call fun buf' d' h => ⟨h.1, h.2.served, h.2.latency, h.2.disk, h.2.moved⟩

theorem ideWrite_returns (hready : d.Ready) (hpos : 0 < secCnt)
    (hrange : lba.toNat + secCnt.toNat ≤ maxLba.toNat + 1)
    (hbuf : 512 * secCnt.toNat ≤ buf.size) :
    Returns (Driver.ideWrite devNo lba buf secCnt) d fun _ d' =>
      d.Moves d' (d.store (devNo = 1) (512 * lba.toNat) (512 * secCnt.toNat) buf.data).disk
        (sectorsFrom cmdWriteSector (devNo = 1) lba.toNat secCnt.toNat) := by
  have hzero : (0 : UInt32).toNat = 0 := rfl
  have hassert : assert (lba ≤ maxLba) = .ok () := if_pos (le_maxLba hpos hrange)
  have hassert' : assert (secCnt > 0) = .ok () := if_pos hpos
  have hview : view buf.data 0 = buf.data := by
    funext k
    simp [view]
  rw [Driver.ideWrite, hassert, hassert', Returns, Wp.bind, Wp.lift_pure, Wp.bind, Wp.lift_pure,
    Wp.bind, Wp.of_run selectDisk_run]
  have hloop : Returns (Driver.writeLoop devNo lba secCnt buf (secCnt.toNat + 1) 0)
      (d.selected devNo) _ :=
    writeLoop_returns (selected_ready hready) hrange hbuf (by omega) (by omega)
  rw [hzero, Nat.mul_zero, hview] at hloop
  exact hloop.call fun _ d' h => ⟨h.served, h.latency, h.disk, h.moved⟩

/-- A read stores the sectors of its range in their order, a write stores the buffer in them, each
moves every sector of the range once, and what was written is read back. -/
theorem ide_sectors {dst : Buf} (hready : d.Ready) (hpos : 0 < secCnt)
    (hrange : lba.toNat + secCnt.toNat ≤ maxLba.toNat + 1)
    (hbuf : 512 * secCnt.toNat ≤ buf.size) (hdst : 512 * secCnt.toNat ≤ dst.size) :
    (Returns (Driver.ideRead devNo lba buf secCnt) d fun buf' d' =>
      buf' = ⟨buf.size, splice buf.data 0 (512 * secCnt.toNat)
        (view (d.disk (devNo = 1)) (512 * lba.toNat))⟩ ∧
      d.Moves d' d.disk (sectorsFrom cmdReadSector (devNo = 1) lba.toNat secCnt.toNat)) ∧
    (Returns (Driver.ideWrite devNo lba buf secCnt) d fun _ d' =>
      d.Moves d' (d.store (devNo = 1) (512 * lba.toNat) (512 * secCnt.toNat) buf.data).disk
        (sectorsFrom cmdWriteSector (devNo = 1) lba.toNat secCnt.toNat)) ∧
    Returns (Driver.ideWrite devNo lba buf secCnt >>= fun _ => Driver.ideRead devNo lba dst secCnt)
      d fun dst' _ => ∀ k, k < 512 * secCnt.toNat → dst'.data k = buf.data k := by
  have hwrite : Returns (Driver.ideWrite devNo lba buf secCnt) d _ :=
    ideWrite_returns hready hpos hrange hbuf
  refine ⟨ideRead_returns hready hpos hrange hbuf, hwrite, ?_⟩
  rw [Returns, Wp.bind]
  refine hwrite.call fun _ d' hmoves => ?_
  have hread : Returns (Driver.ideRead devNo lba dst secCnt) d' _ :=
    ideRead_returns (hmoves.ready hready) hpos hrange hdst
  refine hread.call fun dst' d'' h k hk => ?_
  rw [h.1]
  show splice dst.data 0 _ _ k = _
  rw [splice_inside (Nat.zero_le k) (by omega), hmoves.disk]
  show (if decide (devNo = 1) = decide (devNo = 1) then splice _ _ _ _ else _)
    (512 * lba.toNat + (k - 0)) = _
  rw [if_pos rfl, Nat.sub_zero, splice_at hk]

def Ata.empty : Ata where
  sectCnt := 0
  lbaL := 0
  lbaM := 0
  lbaH := 0
  dev := 0
  disk _ _ := 0
  pending := none
  busy := 0
  latency := 3
  moved := []

/-- Three hundred sectors take two commands. -/
theorem ide_sectors_300 :
    Returns (Driver.ideWrite 1 5 ⟨153600, UInt8.ofNat⟩ 300 >>= fun _ =>
      Driver.ideRead 1 5 (.zero 153600) 300)
      Ata.empty fun dst' _ => ∀ k, k < 512 * (300 : UInt32).toNat → dst'.data k = UInt8.ofNat k := by
  have hready : Ata.empty.Ready := ⟨rfl, by decide⟩
  have hrange : (5 : UInt32).toNat + (300 : UInt32).toNat ≤ maxLba.toNat + 1 := by decide
  have hroom : 512 * (300 : UInt32).toNat ≤ 153600 := by decide
  generalize Ata.empty = d at hready ⊢
  exact (ide_sectors hready (by decide) hrange hroom hroom).2.2

/-! ## The disk of the file system -/

theorem selectable_of_range (hpos : 0 < secCnt)
    (hrange : lba.toNat + secCnt.toNat ≤ maxLba.toNat + 1) : Selectable lba secCnt.toNat := by
  have hmax : maxLba.toNat = 163839 := rfl
  have hpos' : 0 < secCnt.toNat := UInt32.lt_iff_toNat_lt.mp hpos
  refine ⟨hpos', fun k hk => UInt32.le_iff_toNat_le.mpr ?_⟩
  rw [UInt32.toNat_add, UInt32.toNat_ofNat']
  omega

/-- `ideRead` and `ideWrite` of the file system are the calls of the driver on its disk. -/
theorem driver_refines {s : State} (hready : d.Ready) (hpos : 0 < secCnt)
    (hrange : lba.toNat + secCnt.toNat ≤ maxLba.toNat + 1)
    (hbuf : 512 * secCnt.toNat ≤ buf.size) (hdisk : s.disk = d.disk (devNo = 1)) :
    (Returns (Driver.ideRead devNo lba buf secCnt) d fun buf' _ =>
      (ideRead lba buf secCnt.toNat).run s = .ok (buf', s)) ∧
    Returns (Driver.ideWrite devNo lba buf secCnt) d fun _ d' =>
      (ideWrite lba buf secCnt.toNat).run s = .ok ((), { s with disk := d'.disk (devNo = 1) }) := by
  have hassert : assert (Selectable lba secCnt.toNat) = .ok () :=
    if_pos (selectable_of_range hpos hrange)
  have hread : Returns (Driver.ideRead devNo lba buf secCnt) d _ :=
    ideRead_returns hready hpos hrange hbuf
  have hwrite : Returns (Driver.ideWrite devNo lba buf secCnt) d _ :=
    ideWrite_returns hready hpos hrange hbuf
  refine ⟨hread.call fun buf' _ h => ?_, hwrite.call fun _ d' h => ?_⟩
  · have hput : buf.put 0 (512 * secCnt.toNat) (view s.disk (sectorOff lba)) = .ok buf' := by
      rw [Buf.put, if_pos (by omega), h.1, hdisk]
      rfl
    rw [ideRead, kassert, hassert]
    show ((StateT.lift (buf.put 0 (512 * secCnt.toNat) (view s.disk (sectorOff lba))) :
      Kern Buf)).run s = _
    rw [hput]
    rfl
  · have hstore : s.store (sectorOff lba) (512 * secCnt.toNat) buf.data =
        { s with disk := d'.disk (devNo = 1) } := by
      rw [h.disk, State.store, hdisk]
      simp [Ata.store, sectorOff]
    rw [ideWrite, kassert, hassert, if_pos hbuf, ← hstore]
    rfl

/-- Two sectors of an empty disk, by the driver and by the file system. -/
theorem driver_refines_empty :
    (Returns (Driver.ideRead 1 2048 (Buf.zero 1024) 2) Ata.empty fun buf' _ =>
      (ideRead 2048 (Buf.zero 1024) 2).run (idleState (emptyPart 2048 8192)) =
        .ok (buf', idleState (emptyPart 2048 8192))) ∧
    Returns (Driver.ideWrite 1 2048 (Buf.zero 1024) 2) Ata.empty fun _ d' =>
      (ideWrite 2048 (Buf.zero 1024) 2).run (idleState (emptyPart 2048 8192)) =
        .ok ((), { idleState (emptyPart 2048 8192) with disk := d'.disk true }) :=
  driver_refines ⟨rfl, by decide⟩ (by decide) (by decide) (by decide) rfl

end

end OsTruth
