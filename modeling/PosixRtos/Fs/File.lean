import PosixRtos.Fs.Chains

/-! Open files: `f_read`, `f_write`, `f_lseek` and `f_truncate`. A file has a buffer of one
sector of its own; whole sectors go past it. `faults` is about the requests of all of
them. -/
namespace PosixRtos.Fs

open PosixRtos.Library.ByteMemory PosixRtos.Library.Overlay
open PosixRtos.Heap (word sub32)

/-- `FIL`, with the bits of `flag` one by one. An `err` of 0 is `ok`. -/
structure Fil where
  faRead : Bool
  faWrite : Bool
  dirty : Bool
  written : Bool
  err : FResult
  fptr : Nat
  fsize : Nat
  sclust : Nat
  clust : Nat
  dsect : Nat
  buf : Memory

section Functions

variable (faults : Faults) (g : Geometry)

/-- The sector within the cluster. -/
def Fil.csect (fp : Fil) : Nat := (fp.fptr / ss &&& (g.csize - 1)) % 256

/-- Writes the buffer back if it has been changed. -/
def flushBuffer (s : FatFs) (fp : Fil) : FatFs × Fil × FResult :=
  if fp.dirty then
    let (d, done) := diskWrite faults s.drive fp.buf fp.dsect 1
    if !done then ({ s with drive := d }, fp, .diskErr)
    else ({ s with drive := d }, { fp with dirty := false }, .ok)
  else (s, fp, .ok)

def fillBuffer (s : FatFs) (fp : Fil) (sect : Nat) : FatFs × Fil × FResult :=
  let (d, done, buff) := diskRead faults s.drive sect
  ({ s with drive := d }, { fp with buf := buff }, if done then .ok else .diskErr)

/-! `f_read` -/

/-- The cluster that is read next. -/
def readCluster (s : FatFs) (fp : Fil) : FatFs × Fil × FResult :=
  let (s, clst) := if fp.fptr = 0 then (s, fp.sclust) else getFat faults g s fp.clust
  if clst < 2 then (s, fp, .intErr)
  else if clst = diskError then (s, fp, .diskErr)
  else (s, { fp with clust := clst }, .ok)

/-- Whole sectors, read past the buffer. The sector in the buffer is newer where it has
been changed. -/
def readSectors (s : FatFs) (fp : Fil) (csect sect cc : Nat) :
    FatFs × Fil × Except FResult (List Byte) :=
  let cc := if g.csize < csect + cc then g.csize - csect else cc
  let (d, done, rbuff) := diskRead faults s.drive sect
  let s := { s with drive := d }
  if !done then (s, fp, .error .diskErr)
  else
    let rbuff := if fp.dirty ∧ sub32 fp.dsect sect < cc then
      write rbuff (ss * sub32 fp.dsect sect) (read fp.buf 0 ss) else rbuff
    (s, fp, .ok (read rbuff 0 (ss * cc)))

/-- Brings a sector into the buffer. -/
def loadSector (s : FatFs) (fp : Fil) (sect : Nat) : FatFs × Fil × FResult :=
  if fp.dsect ≠ sect then
    let (s, fp, res) := flushBuffer faults s fp
    if res ≠ .ok then (s, fp, res)
    else
      let (s, fp, res) := fillBuffer faults s fp sect
      if res ≠ .ok then (s, fp, res) else (s, { fp with dsect := sect }, .ok)
  else (s, { fp with dsect := sect }, .ok)

/-- The part of the buffer from the file pointer on, `n` bytes at most. -/
def Fil.pick (fp : Fil) (n : Nat) : List Byte :=
  let cnt := ss - fp.fptr % ss
  read fp.buf (fp.fptr % ss) (if n < cnt then n else cnt)

/-- One turn of the loop of `f_read`: the bytes that it reads. -/
def readRound (s : FatFs) (fp : Fil) (btr : Nat) : FatFs × Fil × Except FResult (List Byte) :=
  if fp.fptr % ss = 0 then
    let csect := fp.csect g
    let (s, fp, res) := if csect = 0 then readCluster faults g s fp else (s, fp, .ok)
    if res ≠ .ok then (s, fp, .error res)
    else
      let sect := clust2sect g fp.clust
      if sect = 0 then (s, fp, .error .intErr)
      else
        let sect := word (sect + csect)
        let cc := btr / ss
        if cc ≠ 0 then readSectors faults g s fp csect sect cc
        else
          let (s, fp, res) := loadSector faults s fp sect
          if res ≠ .ok then (s, fp, .error res) else (s, fp, .ok (fp.pick btr))
  else (s, fp, .ok (fp.pick btr))

/-- The loop of `f_read`; `got` are the bytes so far. -/
def readLoop : Nat → FatFs → Fil → Nat → List Byte → Option (FatFs × Fil × FResult × List Byte)
  | 0, _, _, _, _ => none
  | fuel + 1, s, fp, btr, got =>
      if btr = 0 then some (s, fp, .ok, got)
      else
        match readRound faults g s fp btr with
        | (s, fp, .error res) => some (s, { fp with err := res }, res, got)
        | (s, fp, .ok bytes) =>
            readLoop fuel s { fp with fptr := fp.fptr + bytes.length } (btr - bytes.length)
              (got ++ bytes)

/-- `f_read` of an object for which `validate` gives `valid`. -/
def fRead (valid : Bool) (s : FatFs) (fp : Fil) (btr : Nat) :
    Option (FatFs × Fil × FResult × List Byte) :=
  if !valid then some (s, fp, .invalidObject, [])
  else if fp.err ≠ .ok then some (s, fp, fp.err, [])
  else if !fp.faRead then some (s, fp, .denied, [])
  else
    let remain := sub32 fp.fsize fp.fptr
    let btr := if remain < btr then remain else btr
    readLoop faults g (btr + 1) s fp btr []

/-! `f_write` -/

/-- The end of a turn of the loop of `f_write`: bytes written, no cluster left, or an error. -/
inductive Round where
  | wrote (n : Nat)
  | full
  | error (res : FResult)

/-- The cluster that is written next; an `ok` of 0 stands for a full disk. -/
def writeCluster (s : FatFs) (fp : Fil) : Option (FatFs × Fil × Except FResult Nat) :=
  let created := if fp.fptr = 0 then
      if fp.sclust = 0 then createChain faults g s 0 else some (s, fp.sclust)
    else createChain faults g s fp.clust
  created.map fun (s, clst) =>
    if clst = 0 then (s, fp, .ok 0)
    else if clst = 1 then (s, fp, .error .intErr)
    else if clst = diskError then (s, fp, .error .diskErr)
    else (s, { fp with clust := clst, sclust := if fp.sclust = 0 then clst else fp.sclust },
      .ok clst)

/-- Whole sectors, written past the buffer, which is refilled where it is one of them. -/
def writeSectors (s : FatFs) (fp : Fil) (wbuff : List Byte) (csect sect cc : Nat) :
    FatFs × Fil × Round :=
  let cc := if g.csize < csect + cc then g.csize - csect else cc
  let wmem := write (fun _ => 0) 0 wbuff
  let (d, done) := diskWrite faults s.drive wmem sect cc
  let s := { s with drive := d }
  if !done then (s, fp, .error .diskErr)
  else
    let fp := if sub32 fp.dsect sect < cc then
      { fp with buf := load wmem (ss * sub32 fp.dsect sect), dirty := false } else fp
    (s, fp, .wrote (ss * cc))

/-- The part of the buffer from the file pointer on is overwritten. -/
def Fil.fit (fp : Fil) (wbuff : List Byte) : Fil × Nat :=
  let cnt := ss - fp.fptr % ss
  let cnt := if wbuff.length < cnt then wbuff.length else cnt
  ({ fp with buf := write fp.buf (fp.fptr % ss) (wbuff.take cnt), dirty := true }, cnt)

/-- What `f_write` does with the sector that the file pointer is at the start of. -/
def writeSector (s : FatFs) (fp : Fil) (wbuff : List Byte) (csect : Nat) : FatFs × Fil × Round :=
  let (s, fp, res) := flushBuffer faults s fp
  if res ≠ .ok then (s, fp, .error res)
  else
    let sect := clust2sect g fp.clust
    if sect = 0 then (s, fp, .error .intErr)
    else
      let sect := word (sect + csect)
      let cc := wbuff.length / ss
      if cc ≠ 0 then writeSectors faults g s fp wbuff csect sect cc
      else
        let (s, fp, res) := if fp.dsect ≠ sect ∧ fp.fptr < fp.fsize then
          fillBuffer faults s fp sect else (s, fp, .ok)
        if res ≠ .ok then (s, fp, .error res)
        else
          let (fp, n) := Fil.fit { fp with dsect := sect } wbuff
          (s, fp, .wrote n)

/-- One turn of the loop of `f_write`. -/
def writeRound (s : FatFs) (fp : Fil) (wbuff : List Byte) : Option (FatFs × Fil × Round) :=
  if fp.fptr % ss = 0 then
    let csect := fp.csect g
    let here := if csect = 0 then writeCluster faults g s fp else some (s, fp, .ok fp.clust)
    here.map fun
      | (s, fp, .error res) => (s, fp, .error res)
      | (s, fp, .ok clst) =>
          if csect = 0 ∧ clst = 0 then (s, fp, .full) else writeSector faults g s fp wbuff csect
  else
    let (fp, n) := fp.fit wbuff
    some (s, fp, .wrote n)

/-- The loop of `f_write`; `bw` are the bytes written so far. -/
def writeLoop : Nat → FatFs → Fil → List Byte → Nat → Option (FatFs × Fil × FResult × Nat)
  | 0, _, _, _, _ => none
  | fuel + 1, s, fp, wbuff, bw =>
      if wbuff.length = 0 then some (s, fp, .ok, bw)
      else
        match writeRound faults g s fp wbuff with
        | none => none
        | some (s, fp, .error res) => some (s, { fp with err := res }, res, bw)
        | some (s, fp, .full) => some (s, fp, .ok, bw)
        | some (s, fp, .wrote n) =>
            writeLoop fuel s { fp with fptr := fp.fptr + n } (wbuff.drop n) (bw + n)

def fWrite (valid : Bool) (s : FatFs) (fp : Fil) (buff : List Byte) :
    Option (FatFs × Fil × FResult × Nat) :=
  if !valid then some (s, fp, .invalidObject, 0)
  else if fp.err ≠ .ok then some (s, fp, fp.err, 0)
  else if !fp.faWrite then some (s, fp, .denied, 0)
  else
    -- a file cannot reach 4 GB
    let buff := if word (fp.fptr + buff.length) < fp.fptr then [] else buff
    match writeLoop faults g (buff.length + 1) s fp buff 0 with
    | none => none
    | some (s, fp, .ok, bw) =>
        some (s, { fp with
          fsize := if fp.fsize < fp.fptr then fp.fptr else fp.fsize, written := true }, .ok, bw)
    | some (s, fp, res, bw) => some (s, fp, res, bw)

/-! `f_lseek` -/

/-- The cluster following loop: the clusters behind `clst` while `ofs` is beyond them. The
result has the cluster and the offset that is left. -/
def seekLoop (bcs : Nat) :
    Nat → FatFs → Fil → Nat → Nat → Option (FatFs × Fil × Except FResult (Nat × Nat))
  | 0, _, _, _, _ => none
  | fuel + 1, s, fp, clst, ofs =>
      if bcs < ofs then
        let next := if fp.faWrite then createChain faults g s clst
          else some (getFat faults g s clst)
        match next with
        | none => none
        | some (s, clst) =>
            if fp.faWrite ∧ clst = 0 then some (s, fp, .ok (clst, bcs))
            else if clst = diskError then some (s, fp, .error .diskErr)
            else if clst ≤ 1 ∨ g.nFatent ≤ clst then some (s, fp, .error .intErr)
            else
              seekLoop bcs fuel s { fp with clust := clst, fptr := fp.fptr + bcs } clst (ofs - bcs)
      else some (s, fp, .ok (clst, ofs))

/-- Where the following of clusters starts: the current cluster or the first one. -/
def seekStart (bcs : Nat) (s : FatFs) (fp : Fil) (ofs : Nat) :
    Option (FatFs × Fil × Except FResult (Nat × Nat)) :=
  let ifptr := fp.fptr
  let fp := { fp with fptr := 0 }
  if 0 < ifptr ∧ (ifptr - 1) / bcs ≤ (ofs - 1) / bcs then
    let fptr := (ifptr - 1) &&& (0xffffffff ^^^ (bcs - 1))
    some (s, { fp with fptr := fptr }, .ok (fp.clust, ofs - fptr))
  else if fp.sclust = 0 then
    (createChain faults g s 0).map fun (s, clst) =>
      if clst = 1 then (s, fp, .error .intErr)
      else if clst = diskError then (s, fp, .error .diskErr)
      else (s, { fp with sclust := clst, clust := clst }, .ok (clst, ofs))
  else some (s, { fp with clust := fp.sclust }, .ok (fp.sclust, ofs))

/-- Moves the file pointer to `ofs`; the result has the sector for the buffer, 0 where the
pointer is at the start of a sector. -/
def seekClusters (s : FatFs) (fp : Fil) (ofs : Nat) :
    Option (FatFs × Fil × Except FResult Nat) :=
  if ofs = 0 then some (s, { fp with fptr := 0 }, .ok 0)
  else
    let bcs := g.csize * ss
    match seekStart faults g bcs s fp ofs with
    | none => none
    | some (s, fp, .error res) => some (s, fp, .error res)
    | some (s, fp, .ok (clst, ofs)) =>
        if clst = 0 then some (s, fp, .ok 0)
        else
          match seekLoop faults g bcs (ofs + 1) s fp clst ofs with
          | none => none
          | some (s, fp, .error res) => some (s, fp, .error res)
          | some (s, fp, .ok (clst, ofs)) =>
              let fp := { fp with fptr := fp.fptr + ofs }
              if ofs % ss ≠ 0 then
                let nsect := clust2sect g clst
                if nsect = 0 then some (s, fp, .error .intErr)
                else some (s, fp, .ok (word (nsect + ofs / ss)))
              else some (s, fp, .ok 0)

def fLseek (valid : Bool) (s : FatFs) (fp : Fil) (ofs : Nat) : Option (FatFs × Fil × FResult) :=
  if !valid then some (s, fp, .invalidObject)
  else if fp.err ≠ .ok then some (s, fp, fp.err)
  else
    let ofs := if fp.fsize < ofs ∧ !fp.faWrite then fp.fsize else ofs
    match seekClusters faults g s fp ofs with
    | none => none
    | some (s, fp, .error res) => some (s, { fp with err := res }, res)
    | some (s, fp, .ok nsect) =>
        let (s, fp, res) := if fp.fptr % ss ≠ 0 then loadSector faults s fp nsect else (s, fp, .ok)
        if res ≠ .ok then some (s, { fp with err := res }, res)
        else if fp.fsize < fp.fptr then
          some (s, { fp with fsize := fp.fptr, written := true }, .ok)
        else some (s, fp, .ok)

/-! `f_truncate` -/

/-- Gives the clusters back that lie behind the file pointer. -/
def truncateChain (s : FatFs) (fp : Fil) : Option (FatFs × Fil × FResult) :=
  if fp.fptr = 0 then
    (removeChain faults g s fp.sclust).map fun (s, res) => (s, { fp with sclust := 0 }, res)
  else
    let (s, ncl) := getFat faults g s fp.clust
    if ncl = diskError then some (s, fp, .diskErr)
    else if ncl = 1 then some (s, fp, .intErr)
    else if ncl < g.nFatent then
      let (s, res) := putFat faults g s fp.clust 0x0fffffff
      if res ≠ .ok then some (s, fp, res)
      else (removeChain faults g s ncl).map fun (s, res) => (s, fp, res)
    else some (s, fp, .ok)

def fTruncate (valid : Bool) (s : FatFs) (fp : Fil) : Option (FatFs × Fil × FResult) :=
  if !valid then some (s, fp, .invalidObject)
  else if fp.err ≠ .ok then some (s, fp, fp.err)
  else if !fp.faWrite then some (s, fp, .denied)
  else if fp.fptr < fp.fsize then
    match truncateChain faults g s { fp with fsize := fp.fptr, written := true } with
    | none => none
    | some (s, fp, res) =>
        let (s, fp, res) := if res = .ok then flushBuffer faults s fp else (s, fp, res)
        some (s, if res ≠ .ok then { fp with err := res } else fp, res)
  else some (s, fp, .ok)

end Functions

end PosixRtos.Fs
