import PosixRtos.Fs.Opening

/-! `f_sync`: the buffer and the directory entry of a file are written, and with them the window
and the FSINFO sector (`sync_fs`). The entry is at `dirPtr` in sector `dirSect`. -/
namespace PosixRtos.Fs

open PosixRtos.Library.ByteMemory PosixRtos.Library.Overlay
open PosixRtos.Heap (word sub32)

/-- `disk_ioctl` with `CTRL_SYNC` is a request like the others. -/
def ctrlSync (faults : Faults) (d : Drive) : Drive × Bool :=
  ({ d with requests := d.requests + 1 }, (faults d.requests).isNone)

/-- The FSINFO sector. -/
def fsInfoSector (freeClust lastClust : Nat) : Memory :=
  store32 (store32 (store32 (store32 (write (fun _ => 0) 510 (halfBytes 0xaa55)) 0 0x41615252)
    484 0x61417272) 488 freeClust) 492 lastClust

/-- The directory entry at `dir` in the window. `tm` is the time that `GET_FATTIME` gives. -/
def dirUpdate (fsize sclust tm dir : Nat) (win : Memory) : Memory :=
  let win := write win (dir + 11) [win (dir + 11) ||| 0x20]
  let win := store32 win (dir + 28) fsize
  let win := stClust dir sclust win
  let win := store32 win (dir + 22) tm
  write win (dir + 18) (halfBytes 0)

/-- The window with the entry in it. -/
def FatFs.putEntry (s : FatFs) (fsize sclust tm dir : Nat) : FatFs :=
  { s with win := dirUpdate fsize sclust tm dir s.win, wflag := true }

section

variable (faults : Faults) (g : Geometry)

/-- Whether the FSINFO sector is written is not looked at. -/
def syncFs (s : FatFs) : FatFs × FResult :=
  let (s, res) := syncWindow faults g s
  if res ≠ .ok then (s, res)
  else
    let s := if g.fsType = .fat32 ∧ s.fsiFlag = 1 then
        let win := fsInfoSector s.freeClust s.lastClust
        let winsect := word (g.volbase + 1)
        { s with
          drive := (diskWrite faults s.drive win winsect 1).1
          winsect := winsect
          win := win
          fsiFlag := 0 }
      else s
    let (d, done) := ctrlSync faults s.drive
    ({ s with drive := d }, if done then .ok else .diskErr)

/-- `FA__WRITTEN` is cleared before `sync_fs` is called. -/
def fSync (valid : Bool) (tm dirSect dirPtr : Nat) (s : FatFs) (fp : Fil) :
    FatFs × Fil × FResult :=
  if !valid then (s, fp, .invalidObject)
  else if fp.written then
    let (s, fp, res) := flushBuffer faults s fp
    if res ≠ .ok then (s, fp, .diskErr)
    else
      let (s, res) := moveWindow faults g s dirSect
      if res ≠ .ok then (s, fp, res)
      else
        let (s, res) := syncFs faults g (s.putEntry fp.fsize fp.sclust tm dirPtr)
        (s, { fp with written := false }, res)
  else (s, fp, .ok)

end

/-- The window without changes is as it is on the medium. -/
def FatFs.Shows (s : FatFs) : Prop :=
  s.wflag = false → s.winsect ≠ noSector →
    ∀ i < ss, s.win i = s.drive.mem (ss * s.winsect + i)

instance (s : FatFs) : Decidable s.Shows :=
  inferInstanceAs (Decidable (s.wflag = false → s.winsect ≠ noSector →
    ∀ i < ss, s.win i = s.drive.mem (ss * s.winsect + i)))

variable {faults : Faults} {vol : Volume} {s s' : FatFs} {fp fp' : Fil}
variable {chain table : List Nat} {known : Nat → Option Byte} {sclust tm dirPtr k : Nat}

/-! The FSINFO sector. -/

/-- On a FAT32 the FAT starts behind it. -/
def InfoInFront (vol : Volume) : Prop := vol.fsType = .fat32 → vol.volbase + 1 < vol.fatbase

/-- A state that shows the same, but for the FSINFO sector, which may be in the window. -/
structure InfoOnly (vol : Volume) (s s' : FatFs) : Prop where
  coherent : Coherent s'
  view : ∀ x, vol.Counts x →
    vol.fsType ≠ .fat32 ∨ x < ss * (vol.volbase + 1) ∨ ss * (vol.volbase + 2) ≤ x →
      s'.view x = s.view x
  window : Stays vol s s'

theorem InfoOnly.entry {c : Nat} (h : InfoOnly vol s s') (hinfo : InfoInFront vol)
    (hlt : c < vol.nFatent) :
    fatEntry vol.toGeometry s'.view c = fatEntry vol.toGeometry s.view c := by
  apply fatEntry_congr hlt
  intro x hx
  apply h.view x (fatArea_counts hx)
  by_cases htype : vol.fsType = .fat32
  · have hbehind := hinfo htype
    have hlow := hx.1
    unfold ss at *
    omega
  · exact .inl htype

theorem InfoOnly.tended (h : InfoOnly vol s s') (hinfo : InfoInFront vol) (chain : List Nat) :
    Tended faults vol s s' chain chain := by
  have hreserved := vol.reserved
  have hbelow := vol.fats_below
  refine ⟨⟨h.coherent, fun c _ hlt _ _ => h.entry hinfo hlt, ?_, ?_⟩, fun _ hc => .inl hc,
    fun hones => hones.imp_right fun hones c hc hlt => ?_, ?_⟩
  · intro c j i hc hlt _ _ hj hi
    have hdata := clust2sect_data ⟨hc, hlt⟩ hj
    have hbyte := byte_counts hdata.1 hdata.2 hi
    apply h.view _ (data_counts hbyte.1 hbyte.2).1
    by_cases htype : vol.fsType = .fat32
    · have hbehind := hinfo htype
      unfold ss at *
      omega
    · exact .inl htype
  · intro x hx
    exact h.view x (boot_counts hx).1 (.inr (.inl hx))
  · rw [h.entry hinfo hlt]
    exact hones c hc hlt
  · intro others _ hclear
    apply Clear.moved hclear h.window
    rintro c _ hlt (hmem | hfree)
    · exact .inl hmem
    · rw [h.entry hinfo hlt] at hfree
      exact .inr hfree

theorem InfoOnly.directory (h : InfoOnly vol s s') (hinfo : InfoInFront vol)
    (hdir : Directory vol s sclust table) : Directory vol s' sclust table :=
  ⟨hdir.linked.congr fun c hc => h.entry hinfo (hdir.linked.2 c hc).2, hdir.start, hdir.root⟩

theorem ctrlSync_result (faults : Faults) (d : Drive) :
    (if (ctrlSync faults d).2 then FResult.ok else .diskErr) = .ok ∨
      (if (ctrlSync faults d).2 then FResult.ok else .diskErr) ≠ .ok ∧ Faulty faults := by
  unfold ctrlSync
  dsimp only
  cases hfault : faults d.requests with
  | none => exact .inl rfl
  | some damage => exact .inr ⟨by simp, d.requests, by simp [hfault]⟩

/-- `sync_fs`, where the FSINFO sector has been written or nothing has been. -/
theorem syncFs_infoOnly {r : FResult} (hc : Coherent s) (hinfo : InfoInFront vol)
    (hcall : syncFs faults vol.toGeometry s = (s', r))
    (hshows : vol.fsType = .fat32 → s'.Shows) :
    InfoOnly vol s s' ∧ (r = .ok ∨ r ≠ .ok ∧ Faulty faults) := by
  have hdata := vol.data_fits
  have hbelow := vol.fats_below
  have hreserved := vol.reserved
  obtain ⟨s₁, r₁, hsync⟩ : ∃ s₁ r, syncWindow faults vol.toGeometry s = (s₁, r) := ⟨_, _, rfl⟩
  unfold syncFs at hcall
  rw [hsync] at hcall
  dsimp only at hcall
  obtain ⟨hkept, hsector, ⟨rfl, hclean⟩ | ⟨rfl, hfaulty⟩⟩ := syncWindow_spec hc hsync
  · rw [if_neg (by simp)] at hcall
    have hmem : ∀ x, vol.Counts x → s₁.drive.mem x = s.view x := by
      intro x hx
      rw [← hkept.coherent.view_clean hclean hx.1]
      exact hkept.view x hx
    by_cases hfat : vol.fsType = .fat32 ∧ s₁.fsiFlag = 1
    · have hword : word (vol.volbase + 1) = vol.volbase + 1 := Nat.mod_eq_of_lt (by omega)
      simp only [if_pos hfat, hword] at hcall
      obtain ⟨rfl, rfl⟩ := Prod.mk.inj hcall
      refine ⟨⟨⟨hshows hfat.1, fun hdirty => ?_⟩, ?_, .inr (.inl ?_)⟩, ctrlSync_result _ _⟩
      · cases hclean.symm.trans hdirty
      · intro x hx hout
        have hout := hout.resolve_left (not_not.mpr hfat.1)
        rw [← hmem x hx]
        unfold FatFs.view ctrlSync
        dsimp only
        rw [overlay_outside (by unfold ss at *; omega)]
        exact diskWrite_outside (by unfold ss at *; omega)
      · have hbehind := hinfo hfat.1
        dsimp only
        omega
    · simp only [if_neg hfat] at hcall
      obtain ⟨rfl, rfl⟩ := Prod.mk.inj hcall
      exact ⟨⟨⟨hkept.coherent.clean, hkept.coherent.valid⟩, fun x hx _ => hkept.view x hx,
        .inl hsector⟩, ctrlSync_result _ _⟩
  · rw [if_pos (by simp)] at hcall
    obtain ⟨rfl, rfl⟩ := Prod.mk.inj hcall
    exact ⟨⟨hkept.coherent, fun x hx _ => hkept.view x hx, .inl hsector⟩,
      .inr ⟨by simp, hfaulty⟩⟩

/-! The buffer. -/

/-- A buffer that could not be written is still there. -/
theorem flushBuffer_failed (h : Holds vol s fp chain known) (hc : Coherent s)
    (hclear : Clear vol s chain) (hcall : flushBuffer faults s fp = (s', fp', .diskErr)) :
    fp' = fp ∧ Holds vol s' fp chain known := by
  obtain ⟨-, hentries, -⟩ := flushBuffer_data hcall h.clusters h.dirty hc hclear
  unfold flushBuffer at hcall
  split at hcall
  next hdirty =>
    dsimp only at hcall
    split at hcall
    · cases hcall
      refine ⟨rfl, h.linked.congr fun c hcm => hentries c (h.linked.2 c hcm).2, h.nodup, h.start,
        h.room, h.limit, h.dirty, h.buffered, ?_⟩
      intro o b ho hknown hother
      have hne := hother hdirty
      have hapart : ss * fileSect vol.toGeometry chain (o / ss) + o % ss < ss * fp.dsect ∨
          ss * fp.dsect + ss * 1 ≤ ss * fileSect vol.toGeometry chain (o / ss) + o % ss :=
        byte_apart (by omega) (Nat.mod_lt o (by decide))
      rw [writeData_outside hapart]
      exact h.stored o b ho hknown hother
    · cases hcall
  next => cases hcall

/-- The file after the first part of `f_sync`: nothing has been lost. -/
structure Flushed (vol : Volume) (s s₁ : FatFs) (fp fp' : Fil) (chain : List Nat)
    (known : Nat → Option Byte) : Prop where
  progress : Progress vol s s₁ chain chain
  file : FileInv vol s₁ fp' chain known
  same : fp'.err = fp.err ∧ fp'.fptr = fp.fptr ∧ fp'.fsize = fp.fsize

/-- What `f_sync` does: it writes the buffer of the file, and then it works in the directory. -/
theorem fSync_turns {r : FResult} (h : FileInv vol s fp chain known) (hc : Coherent s)
    (hclear : Clear vol s chain) (hdir : Directory vol s sclust table)
    (hapart : List.Disjoint chain table) (hk : k < tableLength vol.toGeometry table)
    (hinfo : InfoInFront vol)
    (hcall : fSync faults vol.toGeometry true tm (tableSect vol.toGeometry table k) dirPtr s fp =
      (s', fp', r)) (hshows : vol.fsType = .fat32 → s'.Shows) :
    (r = .ok ∨ r ≠ .ok ∧ Faulty faults) ∧
      ∃ s₁, Flushed vol s s₁ fp fp' chain known ∧ Tended faults vol s₁ s' table table ∧
        Directory vol s' sclust table := by
  unfold fSync at hcall
  rw [if_neg (by simp)] at hcall
  by_cases hwritten : fp.written = true
  · rw [if_pos hwritten] at hcall
    obtain ⟨s₁, fp₁, r₁, hflush⟩ : ∃ s₁ fp₁ r₁, flushBuffer faults s fp = (s₁, fp₁, r₁) :=
      ⟨_, _, _, rfl⟩
    rw [hflush] at hcall
    dsimp only at hcall
    obtain ⟨hprogress, hr⟩ := flushBuffer_spec h.toHolds hc hclear hflush
    have hdir₁ := hdir.elsewhere hprogress.frame.toElsewhere hapart
    rcases hr with ⟨rfl, rfl, hholds⟩ | ⟨rfl, hfaulty⟩
    · rw [if_neg (by simp)] at hcall
      have hfile : FileInv vol s₁ { fp with dirty := false } chain known :=
        ⟨hholds, h.cluster, h.sector⟩
      obtain ⟨s₂, r₂, hmove⟩ : ∃ s₂ r₂, moveWindow faults vol.toGeometry s₁
        (tableSect vol.toGeometry table k) = (s₂, r₂) := ⟨_, _, rfl⟩
      rw [hmove] at hcall
      dsimp only at hcall
      obtain ⟨hwalked, hmoved⟩ := moveWindow_walked hprogress.frame.coherent hk hmove
      have htended : Tended faults vol s₁ s₂ table table := hwalked.tended hdir₁
      have hdir₂ := hwalked.directory hdir₁
      rcases hmoved with ⟨rfl, hwin⟩ | ⟨rfl, hfaulty⟩
      · rw [if_neg (by simp)] at hcall
        obtain ⟨s₃, r₃, hsync⟩ : ∃ s₃ r₃, syncFs faults vol.toGeometry
          (s₂.putEntry fp.fsize fp.sclust tm dirPtr) = (s₃, r₃) := ⟨_, _, rfl⟩
        rw [hsync] at hcall
        obtain ⟨rfl, hrest⟩ := Prod.mk.inj hcall
        obtain ⟨rfl, rfl⟩ := Prod.mk.inj hrest
        obtain ⟨hput, hdir₃⟩ := written_tended faults
          (dirUpdate fp.fsize fp.sclust tm dirPtr s₂.win) hdir₂ hk hwin
        obtain ⟨hinfoOnly, hr⟩ := syncFs_infoOnly hput.elsewhere.coherent hinfo hsync hshows
        refine ⟨hr, s₁, ⟨hprogress, ?_, rfl, rfl, rfl⟩, (htended.trans hput).trans
          (hinfoOnly.tended hinfo table), hinfoOnly.directory hinfo hdir₃⟩
        exact ⟨⟨hfile.linked, hfile.nodup, hfile.start, hfile.room, hfile.limit, hfile.dirty,
          hfile.buffered, hfile.stored⟩, hfile.cluster, hfile.sector⟩
      · rw [if_pos (by simp)] at hcall
        obtain ⟨rfl, hrest⟩ := Prod.mk.inj hcall
        obtain ⟨rfl, rfl⟩ := Prod.mk.inj hrest
        exact ⟨.inr ⟨by simp, hfaulty⟩, s₁, ⟨hprogress, hfile, rfl, rfl, rfl⟩, htended, hdir₂⟩
    · rw [if_pos (by simp)] at hcall
      obtain ⟨rfl, hrest⟩ := Prod.mk.inj hcall
      obtain ⟨rfl, rfl⟩ := Prod.mk.inj hrest
      obtain ⟨rfl, hholds⟩ := flushBuffer_failed h.toHolds hc hclear hflush
      exact ⟨.inr ⟨by simp, hfaulty⟩, s₁, ⟨hprogress, ⟨hholds, h.cluster, h.sector⟩, rfl, rfl, rfl⟩,
        .refl hprogress.frame.coherent, hdir₁⟩
  · rw [if_neg hwritten] at hcall
    obtain ⟨rfl, hrest⟩ := Prod.mk.inj hcall
    obtain ⟨rfl, rfl⟩ := Prod.mk.inj hrest
    exact ⟨.inl rfl, s, ⟨.refl hc chain, h, rfl, rfl, rfl⟩, .refl hc, hdir⟩

end PosixRtos.Fs
