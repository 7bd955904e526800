import Pintos.Userprog.Load

/-!
# Segments are loaded where they belong

The checks of `validate_segment` rule out every wrap-around in the arguments that `load` computes from
a program header (`segmentArgs_fits`), so the loop of `load_segment` fills whole pages between page 1
and `PHYS_BASE` and keeps its file position and its addresses in step (`wp_loadPages`).
-/

namespace Pintos.Userprog

open Pintos.Threads

variable {α : Type}

/-! ### Rules for the operations -/

section Rules

variable {E : LoadStop → Pagedir → Prop} {pd : Pagedir}

@[simp] theorem wp_pallocGetPage {Q : Bool → Pagedir → Prop} :
    Prog.wp loadEffect pallocGetPage Q E pd ↔ ∀ b, Q b pd := by
  constructor
  · intro h b
    exact h b pd rfl
  · rintro h b pd' rfl
    exact h b

@[simp] theorem wp_getPagedir {Q : Pagedir → Pagedir → Prop} :
    Prog.wp loadEffect getPagedir Q E pd ↔ Q pd pd := by
  constructor
  · intro h
    exact h pd pd ⟨rfl, rfl⟩
  · intro h x pd' ⟨hx, hpd'⟩
    rw [hx, hpd']
    exact h

@[simp] theorem wp_setPagedir {new : Pagedir} {Q : Unit → Pagedir → Prop} :
    Prog.wp loadEffect (setPagedir new) Q E pd ↔ Q () new := by
  constructor
  · intro h
    exact h () new rfl
  · intro h x pd' hpd'
    rw [show pd' = new from hpd']
    exact h

theorem wp_fileSeek {file : ExecFile} {ofs : ℤ} {Q : ExecFile → Pagedir → Prop} (h : 0 ≤ ofs) :
    Prog.wp loadEffect (fileSeek file ofs) Q E pd ↔ Q { file with pos := ofs.toNat } pd := by
  rw [fileSeek, if_pos h]
  exact Iff.rfl

@[simp] theorem wp_fileRead {file : ExecFile} {size : ℕ} {Q : List UInt8 × ExecFile → Pagedir → Prop} :
    Prog.wp loadEffect (fileRead file size) Q E pd ↔
      ∀ limit, Q (FileBytes.read file.bytes file.pos (min size limit),
        { file with pos := file.pos + (FileBytes.read file.bytes file.pos (min size limit)).length }) pd := by
  constructor
  · intro h limit
    exact h limit pd rfl
  · rintro h limit pd' rfl
    exact h limit

/-- Installing a page at a page boundary of the user's part either maps it there, where nothing was
mapped, or changes nothing. -/
theorem wp_installPage {upage : Word} {page : UserPage} {Q : Bool → Pagedir → Prop}
    (hofs : upage.toNat % 4096 = 0) (huser : upage.toNat < 0xc0000000) (hfalse : Q false pd)
    (htrue : pd upage = none → Q true (Function.update pd upage (some page))) :
    Prog.wp loadEffect (installPage upage page) Q E pd := by
  have huser' : isUserVaddr upage = true := isUserVaddr_iff.mpr huser
  have hofs' : pgOfs upage = 0 := by
    apply BitVec.eq_of_toNat_eq
    rw [toNat_pgOfs, hofs]
    rfl
  have hround : pgRoundDown upage = upage := by
    apply BitVec.eq_of_toNat_eq
    rw [toNat_pgRoundDown, hofs, Nat.sub_zero]
  simp only [installPage, pagedirGetPage, huser', if_true, Prog.wp_bind, wp_getPagedir, Prog.pure_eq_ret,
    Prog.wp_ret, hround]
  cases hx : pd upage with
  | some old => exact hfalse
  | none =>
    simp only [Option.isNone_none, if_true, pagedirSetPage, hofs', huser', and_self, Prog.wp_bind,
      wp_pallocGetPage]
    intro b
    cases b with
    | false => exact hfalse
    | true =>
      simp only [if_true, Prog.wp_bind, wp_getPagedir, hx, Option.isNone_none, wp_setPagedir]
      exact htrue hx

end Rules

/-! ### The loop of `load_segment` -/

/-- The pages mapped in `pd'` but not in `pd` begin at page boundaries from `lo` on and end at `hi`; no
other page has changed. -/
def Installed (pd pd' : Pagedir) (lo hi : ℕ) : Prop :=
  ∀ a, pd' a ≠ pd a → pd a = none ∧ a.toNat % 4096 = 0 ∧ lo ≤ a.toNat ∧ a.toNat + 4096 ≤ hi

theorem Installed.refl (pd : Pagedir) (lo hi : ℕ) : Installed pd pd lo hi := fun _ h => absurd rfl h

theorem Installed.trans {pd pd₁ pd' : Pagedir} {lo hi : ℕ} (h : Installed pd pd₁ lo hi)
    (h' : Installed pd₁ pd' lo hi) : Installed pd pd' lo hi := by
  intro a ha
  by_cases h₁ : pd₁ a = pd a
  · rw [← h₁] at ha ⊢
    exact h' a ha
  · exact h a h₁

theorem Installed.mono {pd pd' : Pagedir} {lo hi lo' hi' : ℕ} (h : Installed pd pd' lo hi)
    (hlo : lo' ≤ lo) (hhi : hi ≤ hi') : Installed pd pd' lo' hi' := by
  intro a ha
  obtain ⟨hnone, hofs, hl, hh⟩ := h a ha
  exact ⟨hnone, hofs, by omega, by omega⟩

theorem Installed.update {pd : Pagedir} {upage : Word} {page : UserPage} {lo hi : ℕ}
    (hnone : pd upage = none) (hofs : upage.toNat % 4096 = 0) (hlo : lo ≤ upage.toNat)
    (hhi : upage.toNat + 4096 ≤ hi) :
    Installed pd (Function.update pd upage (some page)) lo hi := by
  intro a ha
  by_cases h : a = upage
  · subst h
    exact ⟨hnone, hofs, hlo, hhi⟩
  · rw [Function.update_of_ne h] at ha
    exact absurd rfl ha

/-- The bytes of the `size` addresses from `upage` on: first those of the file from `pos` on, of which
there are `readBytes`, then zeros. -/
def Filled (pd : Pagedir) (file : ExecFile) (upage : Word) (pos readBytes size : ℕ) : Prop :=
  ∀ k, k < size → pd.byte (upage + BitVec.ofNat 32 k) =
    if k < readBytes then file.bytes[pos + k]? else some 0

theorem toNat_add_ofNat {a : Word} {k : ℕ} (h : a.toNat + k < 2 ^ 32) :
    (a + BitVec.ofNat 32 k).toNat = a.toNat + k := by
  rw [BitVec.toNat_add_of_lt] <;> rw [BitVec.toNat_ofNat, Nat.mod_eq_of_lt (by omega)]
  exact h

/-- The byte at offset `k` of a page that is mapped. -/
theorem byte_of_page {pd : Pagedir} {upage : Word} {page : UserPage} {k : ℕ} (hpd : pd upage = some page)
    (hofs : upage.toNat % 4096 = 0) (hk : k < 4096) (hlt : upage.toNat + k < 2 ^ 32) :
    pd.byte (upage + BitVec.ofNat 32 k) = some (page.frame.get k) := by
  have hsum := toNat_add_ofNat hlt
  have hround : pgRoundDown (upage + BitVec.ofNat 32 k) = upage := by
    apply BitVec.eq_of_toNat_eq
    rw [toNat_pgRoundDown, hsum]
    omega
  have hk' : (pgOfs (upage + BitVec.ofNat 32 k)).toNat = k := by
    rw [toNat_pgOfs, hsum]
    omega
  rw [Pagedir.byte, hround, hpd, hk']
  rfl

/-- The page of a round, filled from the file, and the pages that the rest of the loop fills. -/
theorem Filled.round {pd : Pagedir} {file : ExecFile} {upage : Word} {writable : Bool} {l : List UInt8}
    {pos readBytes size : ℕ} (hself : pd upage = some ⟨Block.mk (Bytes.overlay l fun _ => 0), writable⟩)
    (hofs : upage.toNat % 4096 = 0) (hhi : upage.toNat + (size + 4096) ≤ 0xc0000000)
    (hlen : l.length = min readBytes 4096) (hget : ∀ k, k < l.length → l[k]? = file.bytes[pos + k]?)
    (hrest : Filled pd file (upage + pgSize) (pos + l.length) (readBytes - l.length) size) :
    Filled pd file upage pos readBytes (size + 4096) := by
  intro k hk
  by_cases hk' : k < 4096
  · rw [byte_of_page hself hofs hk' (by omega), Block.get_mk hk', Bytes.overlay]
    by_cases hkr : k < readBytes
    · rw [if_pos hkr, ← hget k (by omega), List.getElem?_eq_getElem (by omega)]
      rfl
    · rw [if_neg hkr, List.getElem?_eq_none (by omega)]
      rfl
  · have hup : (upage + pgSize).toNat = upage.toNat + 4096 :=
      BitVec.toNat_add_of_lt (by rw [toNat_pgSize]; omega)
    have haddr : upage + BitVec.ofNat 32 k = upage + pgSize + BitVec.ofNat 32 (k - 4096) := by
      apply BitVec.eq_of_toNat_eq
      rw [toNat_add_ofNat (by omega), toNat_add_ofNat (by omega), hup]
      omega
    rw [haddr, hrest (k - 4096) (by omega)]
    by_cases hkr : k < readBytes
    · have hpos : pos + l.length + (k - 4096) = pos + k := by omega
      rw [if_pos hkr, if_pos (by omega), hpos]
    · rw [if_neg hkr, if_neg (by omega)]

/-- The numbers of a round of the loop: `page_read_bytes`, and what is left after the round. -/
structure RoundNumbers (readBytes zeroBytes pageReadBytes : Word) : Prop where
  page : pageReadBytes.toNat = min readBytes.toNat 4096
  read : (readBytes - pageReadBytes).toNat = readBytes.toNat - pageReadBytes.toNat
  zero : (zeroBytes - (pgSize - pageReadBytes)).toNat = zeroBytes.toNat - (4096 - pageReadBytes.toNat)

theorem roundNumbers {readBytes zeroBytes : Word} (h : 4096 ≤ readBytes.toNat + zeroBytes.toNat) :
    RoundNumbers readBytes zeroBytes (if readBytes < pgSize then readBytes else pgSize) := by
  set p := if readBytes < pgSize then readBytes else pgSize with hp
  have hpage : p.toNat = min readBytes.toNat 4096 := by
    rw [hp]
    split <;> rename_i h <;> rw [BitVec.lt_def, toNat_pgSize] at h
    · omega
    · rw [toNat_pgSize]
      omega
  have hzero : (pgSize - p).toNat = 4096 - p.toNat := by
    rw [BitVec.toNat_sub_of_le (by rw [BitVec.le_def, toNat_pgSize]; omega), toNat_pgSize]
  refine ⟨hpage, BitVec.toNat_sub_of_le (by rw [BitVec.le_def]; omega), ?_⟩
  rw [BitVec.toNat_sub_of_le (by rw [BitVec.le_def, hzero]; omega), hzero]

/-- **The loop of `load_segment`** maps only the pages it is given, and where it comes to its end they are
filled. -/
theorem wp_loadPages {writable : Bool} {E : LoadStop → Pagedir → Prop} {n : ℕ} :
    ∀ {fuel : ℕ} {file : ExecFile} {upage readBytes zeroBytes : Word} {pd : Pagedir}, n < fuel →
      readBytes.toNat + zeroBytes.toNat = 4096 * n → upage.toNat % 4096 = 0 →
      upage.toNat + 4096 * n ≤ 0xc0000000 →
      Prog.wp loadEffect (loadPages writable fuel file upage readBytes zeroBytes)
        (fun r pd' => Installed pd pd' upage.toNat (upage.toNat + 4096 * n) ∧
          r.2.bytes = file.bytes ∧
          (r.1 = true → (readBytes.toNat ≠ 0 → file.pos + readBytes.toNat ≤ file.bytes.length) ∧
            Filled pd' file upage file.pos readBytes.toNat (4096 * n))) E pd := by
  induction n with
  | zero =>
    intro fuel file upage readBytes zeroBytes pd hfuel hsum _ _
    obtain ⟨fuel, rfl⟩ := Nat.exists_eq_succ_of_ne_zero (Nat.pos_iff_ne_zero.mp hfuel)
    have hr : ¬(readBytes > 0 ∨ zeroBytes > 0) := by
      simp only [gt_iff_lt, BitVec.lt_def]
      have : (0 : Word).toNat = 0 := rfl
      omega
    rw [loadPages, if_neg hr]
    refine ⟨Installed.refl _ _ _, rfl, fun _ => ⟨fun h => absurd (by omega) h, fun k hk => ?_⟩⟩
    exact absurd hk (by omega)
  | succ n ih =>
    intro fuel file upage readBytes zeroBytes pd hfuel hsum hofs hhi
    obtain ⟨fuel, rfl⟩ := Nat.exists_eq_succ_of_ne_zero (by omega : fuel ≠ 0)
    have hr : readBytes > 0 ∨ zeroBytes > 0 := by
      simp only [gt_iff_lt, BitVec.lt_def]
      have : (0 : Word).toNat = 0 := rfl
      omega
    rw [loadPages, if_pos hr]
    have hle : 4096 ≤ 4096 * (n + 1) := Nat.le_mul_of_pos_right _ n.succ_pos
    obtain ⟨hpage, hread, hzero⟩ := @roundNumbers readBytes zeroBytes (hsum ▸ hle)
    clear hr
    generalize (if readBytes < pgSize then readBytes else pgSize) = pageReadBytes at hpage hread hzero ⊢
    have hup : (upage + pgSize).toNat = upage.toNat + 4096 :=
      BitVec.toNat_add_of_lt (by rw [toNat_pgSize]; omega)
    have hfail : ∀ file' : ExecFile, file'.bytes = file.bytes →
        Installed pd pd upage.toNat (upage.toNat + 4096 * (n + 1)) ∧ file'.bytes = file.bytes ∧
        (false = true → (readBytes.toNat ≠ 0 → file.pos + readBytes.toNat ≤ file.bytes.length) ∧
          Filled pd file upage file.pos readBytes.toNat (4096 * (n + 1))) :=
      fun file' hb => ⟨Installed.refl _ _ _, hb, fun h => absurd h (by simp)⟩
    simp only [Prog.wp_bind, wp_pallocGetPage]
    intro b
    cases b with
    | false => exact hfail file rfl
    | true =>
      simp only [Bool.not_true, Bool.false_eq_true, if_false, Prog.wp_bind, wp_fileRead]
      intro limit
      set l := FileBytes.read file.bytes file.pos (min pageReadBytes.toNat limit) with hl
      by_cases hshort : l.length ≠ pageReadBytes.toNat
      · rw [if_pos hshort]
        exact hfail _ rfl
      · rw [if_neg hshort]
        push Not at hshort
        have hlen : min (min pageReadBytes.toNat limit) (file.bytes.length - file.pos) =
            pageReadBytes.toNat := by rwa [hl, FileBytes.length_read] at hshort
        have hget : ∀ k, k < l.length → l[k]? = file.bytes[file.pos + k]? := fun k hk => by
          rw [hl, FileBytes.getElem?_read (by omega)]
        clear_value l
        refine (Prog.wp_bind _ _).mpr (wp_installPage hofs (by omega) (hfail _ rfl) fun hnone => ?_)
        simp only [Bool.not_true, Bool.false_eq_true, if_false]
        refine Prog.wp_mono_ret (ih (by omega) (by omega) (by omega) (by omega)) ?_
        rintro ⟨ok, file'⟩ pd' ⟨hinst, hbytes, hok⟩
        rw [hup] at hinst
        have hself : pd' upage = some ⟨Block.mk (Bytes.overlay l fun _ => 0), writable⟩ := by
          by_contra hne
          have := (hinst upage (by rwa [Function.update_self])).2.2.1
          omega
        refine ⟨?_, hbytes, fun htrue => ?_⟩
        · exact (Installed.update hnone hofs le_rfl (Nat.add_le_add_left hle _)).trans
            (hinst.mono (by omega) (by omega))
        · obtain ⟨hin, hfill⟩ := hok htrue
          simp only [hread, ← hshort] at hin hfill
          refine ⟨fun _ => ?_, .round hself hofs hhi (hshort.trans hpage) hget hfill⟩
          by_cases hmore : readBytes.toNat - l.length = 0
          · omega
          · have hin := hin hmore
            omega

/-! ### The checks of `validate_segment` -/

/-- The numbers in a program header that `validate_segment` accepts. -/
structure ValidSegment (phdr : Elf32Phdr) (file : ExecFile) : Prop where
  aligned : phdr.pOffset.toNat % 4096 = phdr.pVaddr.toNat % 4096
  inFile : phdr.pOffset.toNat ≤ file.bytes.length
  filesz : phdr.pFilesz.toNat ≤ phdr.pMemsz.toNat
  nonempty : 0 < phdr.pMemsz.toNat
  low : 4096 ≤ phdr.pVaddr.toNat
  high : phdr.pVaddr.toNat + phdr.pMemsz.toNat < 0xc0000000

theorem validSegment_of_validate {phdr : Elf32Phdr} {file : ExecFile}
    (h : validateSegment phdr file = true) : ValidSegment phdr file := by
  simp only [validateSegment] at h
  split_ifs at h with hofs hfile hsz hempty huser huserEnd hwrap hlow
  have hlen : (BitVec.ofInt 32 (fileLength file)).toNat = file.bytes.length := by
    have := file.short
    rw [fileLength, BitVec.toNat_ofInt]
    omega
  simp only [gt_iff_lt, BitVec.lt_def, hlen, toNat_pgSize] at hfile hsz hwrap hlow
  simp only [Bool.not_eq_true', Bool.not_eq_false] at huser huserEnd
  rw [isUserVaddr_iff] at huser huserEnd
  have hmem : phdr.pMemsz.toNat ≠ 0 := fun h0 => hempty (BitVec.eq_of_toNat_eq h0)
  have hsum := BitVec.toNat_add phdr.pVaddr phdr.pMemsz
  have hv := phdr.pVaddr.isLt
  have hm := phdr.pMemsz.isLt
  have haligned := congrArg BitVec.toNat (not_not.mp hofs)
  rw [toNat_pgOfs, toNat_pgOfs] at haligned
  -- without a wrap-around the end is where the two checks put it
  have hend : phdr.pVaddr.toNat + phdr.pMemsz.toNat < 2 ^ 32 := by
    by_contra hge
    rw [Nat.mod_eq_sub_mod (by omega), Nat.mod_eq_of_lt (by omega)] at hsum
    omega
  rw [Nat.mod_eq_of_lt hend] at hsum
  exact ⟨haligned, by omega, by omega, by omega, by omega, by omega⟩

/-- The arguments are what they would be without the bound on words, they pass the assertions of
`load_segment`, and the segment lies between page 1 and `PHYS_BASE`. -/
structure SegmentArgs.Fits (a : SegmentArgs) (phdr : Elf32Phdr) : Prop where
  ofs : a.ofs + (phdr.pVaddr.toNat % 4096 : ℕ) = phdr.pOffset.toNat
  upage : a.upage.toNat + phdr.pVaddr.toNat % 4096 = phdr.pVaddr.toNat
  readBytes : a.readBytes.toNat =
    if phdr.pFilesz.toNat = 0 then 0 else phdr.pVaddr.toNat % 4096 + phdr.pFilesz.toNat
  total : a.readBytes.toNat + a.zeroBytes.toNat =
    (phdr.pVaddr.toNat % 4096 + phdr.pMemsz.toNat + 4095) / 4096 * 4096
  asserted : a.Asserted
  low : 4096 ≤ a.upage.toNat
  high : a.upage.toNat + (a.readBytes.toNat + a.zeroBytes.toNat) ≤ 0xc0000000

theorem ValidSegment.fits {phdr : Elf32Phdr} {file : ExecFile} (h : ValidSegment phdr file) :
    (segmentArgs phdr).Fits phdr := by
  obtain ⟨haligned, hfile, hsz, hempty, hlow, hhigh⟩ := h
  have hshort := file.short
  have hupage := toNat_pgRoundDown phdr.pVaddr
  have hpage := toNat_pgRoundDown phdr.pOffset
  have hin : (pgOfs phdr.pVaddr).toNat = phdr.pVaddr.toNat % 4096 := toNat_pgOfs _
  have hreadSum : (pgOfs phdr.pVaddr + phdr.pFilesz).toNat =
      phdr.pVaddr.toNat % 4096 + phdr.pFilesz.toNat := by
    rw [BitVec.toNat_add_of_lt (by omega), hin]
  have hmemSum : (pgOfs phdr.pVaddr + phdr.pMemsz).toNat =
      phdr.pVaddr.toNat % 4096 + phdr.pMemsz.toNat := by
    rw [BitVec.toNat_add_of_lt (by omega), hin]
  have hround : (roundUp (pgOfs phdr.pVaddr + phdr.pMemsz) pgSize).toNat =
      (phdr.pVaddr.toNat % 4096 + phdr.pMemsz.toNat + 4095) / 4096 * 4096 := by
    rw [toNat_roundUp (by omega), hmemSum]
  have hpageLt : 2 * (pgRoundDown phdr.pOffset).toNat < 2 ^ 32 := by omega
  have hofs : (segmentArgs phdr).ofs = ((pgRoundDown phdr.pOffset).toNat : ℤ) :=
    BitVec.toInt_eq_toNat_of_lt hpageLt
  have hread : (segmentArgs phdr).readBytes.toNat =
      if phdr.pFilesz.toNat = 0 then 0 else phdr.pVaddr.toNat % 4096 + phdr.pFilesz.toNat := by
    show (if phdr.pFilesz > 0 then pgOfs phdr.pVaddr + phdr.pFilesz else 0).toNat = _
    by_cases h0 : phdr.pFilesz.toNat = 0
    · rw [if_pos h0, if_neg (by rw [gt_iff_lt, BitVec.lt_def, h0]; exact Nat.lt_irrefl 0)]
      rfl
    · rw [if_neg h0, if_pos (by rw [gt_iff_lt, BitVec.lt_def]; exact Nat.pos_of_ne_zero h0), hreadSum]
  have htotal : (segmentArgs phdr).readBytes.toNat + (segmentArgs phdr).zeroBytes.toNat =
      (phdr.pVaddr.toNat % 4096 + phdr.pMemsz.toNat + 4095) / 4096 * 4096 := by
    have hzero : (segmentArgs phdr).zeroBytes = if phdr.pFilesz > 0 then
        roundUp (pgOfs phdr.pVaddr + phdr.pMemsz) pgSize - (segmentArgs phdr).readBytes
      else roundUp (pgOfs phdr.pVaddr + phdr.pMemsz) pgSize := rfl
    by_cases h0 : phdr.pFilesz.toNat = 0
    · rw [hread, if_pos h0, hzero,
        if_neg (by rw [gt_iff_lt, BitVec.lt_def, h0]; exact Nat.lt_irrefl 0), hround, Nat.zero_add]
    · rw [if_neg h0] at hread
      rw [hzero, if_pos (by rw [gt_iff_lt, BitVec.lt_def]; exact Nat.pos_of_ne_zero h0),
        BitVec.toNat_sub_of_le (by rw [BitVec.le_def, hround, hread]; omega), hround, hread]
      omega
  have hup : (segmentArgs phdr).upage.toNat = phdr.pVaddr.toNat - phdr.pVaddr.toNat % 4096 := hupage
  have hasserted : (segmentArgs phdr).Asserted := by
    refine ⟨BitVec.eq_of_toNat_eq ?_, BitVec.eq_of_toNat_eq ?_, ?_⟩
    · rw [BitVec.toNat_umod, BitVec.toNat_add_of_lt (by omega), htotal, toNat_pgSize]
      exact Nat.mul_mod_left _ _
    · rw [toNat_pgOfs, hup]
      show _ = 0
      omega
    · rw [hofs, Int.tmod_eq_emod_of_nonneg (by omega)]
      omega
  exact ⟨by rw [hofs]; omega, by omega, hread, htotal, hasserted, by omega, by omega⟩

/-! ### Segments and executables -/

/-- What every run of `load_segment` on the arguments for a header does. -/
def SegmentLoaded (file : ExecFile) (phdr : Elf32Phdr) : Prop :=
  ∀ pd r pd', Loads (loadSegment file (segmentArgs phdr)) pd r pd' → ∃ ok file', r = .ok (ok, file') ∧
    Installed pd pd' 4096 0xc0000000 ∧ (ok = true →
      (∀ k, k < phdr.pFilesz.toNat → ∃ b, file.bytes[phdr.pOffset.toNat + k]? = some b ∧
        pd'.byte (phdr.pVaddr + BitVec.ofNat 32 k) = some b) ∧
      ∀ k, phdr.pFilesz.toNat ≤ k → k < phdr.pMemsz.toNat →
        pd'.byte (phdr.pVaddr + BitVec.ofNat 32 k) = some 0)

theorem wp_loadSegment {file : ExecFile} {phdr : Elf32Phdr} {pd : Pagedir}
    (h : ValidSegment phdr file) :
    Prog.wp loadEffect (loadSegment file (segmentArgs phdr))
      (fun r pd' => Installed pd pd' 4096 0xc0000000 ∧ (r.1 = true →
        (∀ k, k < phdr.pFilesz.toNat → ∃ b, file.bytes[phdr.pOffset.toNat + k]? = some b ∧
          pd'.byte (phdr.pVaddr + BitVec.ofNat 32 k) = some b) ∧
        ∀ k, phdr.pFilesz.toNat ≤ k → k < phdr.pMemsz.toNat →
          pd'.byte (phdr.pVaddr + BitVec.ofNat 32 k) = some 0)) (fun _ _ => False) pd := by
  obtain ⟨hofs, hupage, hread, htotal, hasserted, hlow, hhigh⟩ := h.fits
  obtain ⟨haligned, hfile, hsz, hempty, _, hend⟩ := h
  set a := segmentArgs phdr
  set n := (phdr.pVaddr.toNat % 4096 + phdr.pMemsz.toNat + 4095) / 4096 with hn
  rw [loadSegment, if_pos hasserted]
  refine (Prog.wp_bind _ _).mpr ((wp_fileSeek (by omega)).mpr ?_)
  refine Prog.wp_mono_ret (wp_loadPages (n := n) (by omega) (by omega) (by omega) (by omega)) ?_
  rintro ⟨ok, file'⟩ pd' ⟨hinst, _, hok⟩
  refine ⟨hinst.mono hlow (by omega), fun htrue => ?_⟩
  obtain ⟨hin, hfill⟩ := hok htrue
  have haddr : ∀ k, k < phdr.pMemsz.toNat → phdr.pVaddr + BitVec.ofNat 32 k =
      a.upage + BitVec.ofNat 32 (phdr.pVaddr.toNat % 4096 + k) := fun k hk => by
    apply BitVec.eq_of_toNat_eq
    rw [toNat_add_ofNat (by omega), toNat_add_ofNat (by omega)]
    omega
  refine ⟨fun k hk => ?_, fun k hk hk' => ?_⟩
  · rw [if_neg (by omega)] at hread
    have hin : a.ofs.toNat + a.readBytes.toNat ≤ file.bytes.length := hin (by omega)
    have hlt : phdr.pOffset.toNat + k < file.bytes.length := by omega
    have hpos : a.ofs.toNat + (phdr.pVaddr.toNat % 4096 + k) = phdr.pOffset.toNat + k := by omega
    refine ⟨file.bytes[phdr.pOffset.toNat + k], List.getElem?_eq_getElem _, ?_⟩
    rw [haddr k (by omega), hfill _ (by omega), if_pos (by omega)]
    show file.bytes[a.ofs.toNat + (phdr.pVaddr.toNat % 4096 + k)]? = _
    rw [hpos]
    exact List.getElem?_eq_getElem _
  · rw [haddr k hk', hfill _ (by omega), if_neg]
    rw [hread]
    split <;> omega

/-- Whatever is mapped, the operations map pages between page 1 and `PHYS_BASE` only, and return. -/
def MapsUserOnly (p : Loader α) : Prop :=
  ∀ pd, Prog.wp loadEffect p (fun _ pd' => Installed pd pd' 4096 0xc0000000) (fun _ _ => False) pd

namespace MapsUserOnly

theorem ret (a : α) : MapsUserOnly (pure a) := fun _ => Installed.refl _ _ _

theorem bind {β : Type} {p : Loader α} {f : α → Loader β} (hp : MapsUserOnly p) (hf : ∀ a, MapsUserOnly (f a)) :
    MapsUserOnly (p >>= f) := fun pd =>
  Prog.wp_seq (hp pd) fun a pd₁ h => Prog.wp_mono_ret (hf a pd₁) fun _ _ h' => h.trans h'

theorem pallocGetPage : MapsUserOnly pallocGetPage := fun _ => wp_pallocGetPage.mpr fun _ => Installed.refl _ _ _

theorem fileSeek (file : ExecFile) {ofs : ℤ} (h : 0 ≤ ofs) : MapsUserOnly (fileSeek file ofs) := fun _ =>
  (wp_fileSeek h).mpr (Installed.refl _ _ _)

theorem fileRead (file : ExecFile) (size : ℕ) : MapsUserOnly (fileRead file size) := fun _ =>
  wp_fileRead.mpr fun _ => Installed.refl _ _ _

theorem loadSegment {file : ExecFile} {phdr : Elf32Phdr} (h : ValidSegment phdr file) :
    MapsUserOnly (loadSegment file (segmentArgs phdr)) := fun _ =>
  Prog.wp_mono_ret (wp_loadSegment h) fun _ _ h => h.1

/-- The loop over the program headers. -/
theorem loadHeaders {n : ℕ} (file : ExecFile) (fileOfs : ℤ) : MapsUserOnly (loadHeaders n file fileOfs) := by
  induction n generalizing file fileOfs with
  | zero => exact ret true
  | succ n ih =>
    rw [Userprog.loadHeaders]
    by_cases hrange : fileOfs < 0 ∨ fileOfs > fileLength file
    · rw [if_pos hrange]
      exact ret false
    · rw [if_neg hrange]
      apply (fileSeek file (by omega)).bind
      intro file
      apply (fileRead file 32).bind
      rintro ⟨l, file⟩
      dsimp only
      split
      · exact ret false
      · split
        · exact ret false
        · split
          · split
            · rename_i hvalid
              apply (loadSegment (validSegment_of_validate hvalid)).bind
              rintro ⟨ok, file⟩
              cases ok with
              | false => exact ret false
              | true => exact ih file _
            · exact ret false
          · exact ih file _

theorem setupStack : MapsUserOnly setupStack := by
  intro pd
  simp only [Userprog.setupStack, Prog.wp_bind, wp_pallocGetPage]
  intro b
  cases b with
  | false => exact Installed.refl _ _ _
  | true =>
    simp only [if_true, Prog.wp_bind]
    refine wp_installPage (by decide) (by decide) (Installed.refl _ _ _) fun hnone => ?_
    exact Installed.update hnone (by decide) (by decide) (by decide)

theorem load (file : Option ExecFile) : MapsUserOnly (load file) := by
  apply pallocGetPage.bind
  intro b
  cases b with
  | false => exact ret none
  | true =>
    cases file with
    | none => exact ret none
    | some file =>
      apply (fileRead file 52).bind
      rintro ⟨l, file⟩
      dsimp only
      split
      · exact ret none
      · split
        · exact ret none
        · apply (loadHeaders file _).bind
          intro ok
          cases ok with
          | false => exact ret none
          | true =>
            apply setupStack.bind
            intro esp
            cases esp with
            | none => exact ret none
            | some esp => exact ret _

end MapsUserOnly

/-- **Loading is confined and faithful.**  Whatever the file holds and whichever allocations fail, `load`
returns, and every page it maps lies between page 1 and `PHYS_BASE`.  For a program header that
`validate_segment` accepts, the arguments of `load_segment` wrap nowhere and pass its assertions, and
when it returns true the segment holds the bytes of the file, followed by zeros. -/
theorem load_confined_faithful :
    (∀ file r pd', Loads (load file) (fun _ => none) r pd' →
      (∃ x, r = .ok x) ∧ Installed (fun _ => none) pd' 4096 0xc0000000) ∧
    ∀ file phdr, validateSegment phdr file = true →
      (segmentArgs phdr).Fits phdr ∧ SegmentLoaded file phdr := by
  refine ⟨fun file r pd' h => ?_, fun file phdr h => ?_⟩
  · have hsat := Prog.wp_iff_ends.mp (MapsUserOnly.load file fun _ => none) r pd' h
    cases r with
    | error e => exact hsat.elim
    | ok x => exact ⟨⟨x, rfl⟩, hsat⟩
  · have hvalid := validSegment_of_validate h
    refine ⟨hvalid.fits, fun pd r pd' hr => ?_⟩
    have hsat := Prog.wp_iff_ends.mp (@wp_loadSegment _ _ pd hvalid) r pd' hr
    cases r with
    | error e => exact hsat.elim
    | ok x => exact ⟨x.1, x.2, rfl, hsat⟩

end Pintos.Userprog
