import SnakeOs.Arch.Memory

namespace SnakeOs.Dma
open Arch

/-- One element of a request, `dma_vec_t`. -/
structure Vec where
  srcAddr : U32
  dstAddr : U32
  size : U32
  dstSel : U8
  srcSel : U8
  dstAddrCtl : U8
  srcAddrCtl : U8
  dstWidth : U8
  srcWidth : U8
deriving DecidableEq

/-- `dma_llp_descr_t` without its reserved bits. -/
structure LlpDescr where
  srcAddr : U32 := 0
  dstAddr : U32 := 0
  llp : U32 := 0
  totSize : BitVec 12 := 0
  dstSel : BitVec 1 := 0
  srcSel : BitVec 1 := 0
  dstAddrCtl : BitVec 2 := 0
  srcAddrCtl : BitVec 2 := 0
  dstWidth : BitVec 3 := 0
  srcWidth : BitVec 3 := 0
  tcMask : BitVec 1 := 0
deriving DecidableEq

def maxDmaVec : Nat := 32
def llpDescrSize : Nat := 16

def width32Bit : U8 := 2
def width16Bit : U8 := 1

def sizeShift (v : Vec) : Nat :=
  if v.srcWidth = width32Bit then 2 else if v.srcWidth = width16Bit then 1 else 0

/-- Descriptor `i` of `nr`, in a table the controller sees at `dma`. Both address
controls are taken from the master selectors. -/
def llpDescrOf (dma : U32) (nr i : Nat) (v : Vec) : LlpDescr where
  srcAddr := virtToPhys v.srcAddr
  dstAddr := virtToPhys v.dstAddr
  dstSel := v.dstSel.setWidth 1
  srcSel := v.srcSel.setWidth 1
  dstAddrCtl := v.dstSel.setWidth 2
  srcAddrCtl := v.srcSel.setWidth 2
  dstWidth := v.dstWidth.setWidth 3
  srcWidth := v.srcWidth.setWidth 3
  totSize := ((v.size >>> sizeShift v) &&& 0xFFF).setWidth 12
  llp := if i = nr - 1 then 0 else dma + BitVec.ofNat 32 ((i + 1) * llpDescrSize)
  tcMask := if i = nr - 1 then 0 else 1

/-- The descriptor loop of `dma_copy`; entries from `nr_vec` on keep what they held. -/
def fillDescrs (dma : U32) (vec : List Vec) (old : Nat → LlpDescr) : Nat → LlpDescr :=
  fun i => match vec[i]? with
    | some v => llpDescrOf dma vec.length i v
    | none => old i

/-- The registers of one channel. -/
structure Regs where
  csr : U32
  srcAddr : U32
  dstAddr : U32
  llp : U32
  size : U32
deriving DecidableEq

def dstSelBit : Nat := 1
def srcSelBit : Nat := 2
def dstAddrCtlBit : Nat := 3
def srcAddrCtlBit : Nat := 5
def dstWidthBit : Nat := 8
def srcWidthBit : Nat := 11
def srcBurstSizeBit : Nat := 16
def priorityBit : Nat := 22
def hhstSelBit : Nat := 25

def srcWidthMask : U32 := 0x3
def dstWidthMask : U32 := 0x3
def srcAddrCtlMask : U32 := 0x3
def dstAddrCtlMask : U32 := 0x3

def chPriority3 : U32 := 0x3
def burstSize128 : U32 := 0x6

/-- `DEFAULT_DMA_CH_CTL`; the fields left out have the value 0. -/
def defaultChCtl : U32 :=
  ((0xF : U32) <<< hhstSelBit) ||| (chPriority3 <<< priorityBit) ||| (burstSize128 <<< srcBurstSizeBit)

/-- The loop body of `dma_channel_init`. -/
def channelInit (r : Regs) : Regs := { r with csr := defaultChCtl }

def enableChannel (r : Regs) : Regs := { r with csr := r.csr ||| 0x1 }

def disableChannel (r : Regs) : Regs := { r with csr := r.csr &&& ~~~(0x1 : U32) }

/-- The control word `dma_process_xfer_job` computes from the old one. -/
def csrOf (csr : U32) (d : LlpDescr) : U32 :=
  let tc := if d.tcMask = 0 then csr &&& ~~~((1 : U32) <<< 31) else csr ||| ((1 : U32) <<< 31)
  let cleared := tc &&& ~~~(srcWidthMask <<< srcWidthBit) &&& ~~~(dstWidthMask <<< dstWidthBit)
    &&& ~~~(srcAddrCtlMask <<< srcAddrCtlBit) &&& ~~~(dstAddrCtlMask <<< dstAddrCtlBit)
  cleared ||| ((d.srcWidth.setWidth 32 <<< srcWidthBit) |||
    (d.dstWidth.setWidth 32 <<< dstWidthBit) ||| (d.srcAddrCtl.setWidth 32 <<< srcAddrCtlBit) |||
    (d.dstAddrCtl.setWidth 32 <<< dstAddrCtlBit) ||| (d.srcSel.setWidth 32 <<< srcSelBit) |||
    (d.dstSel.setWidth 32 <<< dstSelBit))

/-- Programming a channel with the first descriptor of a job, up to the enable. -/
def program (r : Regs) (d : LlpDescr) : Regs :=
  enableChannel { csr := csrOf r.csr d, srcAddr := d.srcAddr, dstAddr := d.dstAddr,
                  llp := d.llp, size := d.totSize.setWidth 32 }

end SnakeOs.Dma
