import Pintos.Filesys.Mount
import Pintos.Filesys.References

/-!
# References after the start

When `filesys_init` is through, with or without formatting, the only inode in memory is that of the free
map, and the only reference to it is that of `free_map_file`.
-/

namespace Pintos.Filesys

variable {w : World} {T : Multiset ℕ} {n : ℕ}

/-- The holders where the free map file is the only one. -/
def atStart (n : ℕ) (f : File) : Holders := ⟨{f.inode}, some f, none, n, ∅⟩

theorem atStart_anchored (n : ℕ) (f : File) : Anchored (atStart n f) := fun f' hf' => by
  obtain rfl : f = f' := Option.some.inj hf'
  exact Multiset.mem_singleton_self _

/-- Nothing is in memory; `free_map_file` may be left over. -/
def atRest (n : ℕ) (file : Option File) : Holders := ⟨0, file, none, n, ∅⟩

theorem wp_true {α : Type} (p : Fs α) : wp .any p (fun _ _ => True) (fun _ _ => True) w :=
  wp_iff_runs.mpr fun r _ _ => by cases r <;> trivial

theorem Still.freeMapInit {m : Mem} : Still m freeMapInit := by
  refine .bind .malloc fun a => ?_
  split
  · exact .stop nofun
  refine .bind .malloc fun b => ?_
  split
  · exact .stop nofun
  refine .bind .junk fun garbage => .getMem fun m' hm' => ?_
  exact fun _ _ => wp_setMem.mpr (hm'.setFreeMap _)

theorem Still.bitmapRead {m : Mem} (hf : FreeMapLive m) : Still m bitmapRead := by
  refine .getMem fun m' hm' => ?_
  cases hfile : m'.freeMapFile with
  | none => exact .stop nofun
  | some f =>
    dsimp only
    split
    · exact .ret _
    refine .bind (.inodeReadAt (hf f (hm'.freeMapFile.symm.trans hfile)) _ _) fun l => ?_
    exact .getSetFreeMap (f := fun m'' => Bitmap.ofBytes m''.freeMap.bitCnt
      (Bytes.overlay l m''.freeMap.byte)) (.ret _)

/-- `dir_create` takes and drops one reference. -/
theorem Handles.dirCreate {H : Holders} (hH : Anchored H) (sector entryCnt : ℕ) :
    Handles H T (dirCreate sector entryCnt) fun _ => T := by
  refine .bind (.still fun m hm => .inodeCreate (hm.freeMapLive hH) _ _ _) fun ok => ?_
  split
  · exact .ret rfl
  refine .bind (.inodeOpen _) fun r => .bind (.dirOpen hH r) fun dir => .bind .junk fun dent => ?_
  cases dir with
  | none => exact .ret (add_zero T).symm
  | some d =>
    have hd : d.inode ∈ H.refs + (T + {d.inode}) := by simp
    refine .bind (.still fun m hm => .inodeWriteAt (hm.freeMapLive hH) (hm.live hd) _ _ _) fun n => ?_
    exact .bind (.dirClose hH (some d)) fun _ => .ret rfl

theorem Handles.run {α : Type} {H : Holders} {p : Fs α} {κ : α → Multiset ℕ} (h : Handles H T p κ)
    (hw : Counts H T w.mem) :
    wp .any p (fun a w' => Counts H (κ a) w'.mem) (fun _ _ => True) w :=
  wp_mono (h w hw) (fun _ _ h => h) fun _ _ _ => trivial

/-- `free_map_create` leaves the file of the free map open. -/
theorem wp_freeMapCreate_counts (hw : Counts (atRest n none) 0 w.mem) :
    wp .any freeMapCreate (fun _ w' => ∃ f, Counts (atStart n f) 0 w'.mem) (fun _ _ => True) w := by
  have hH : Anchored (atRest n none) := nofun
  have hcreate : ∀ length isDir, Handles (atRest n none) 0 (inodeCreate freeMapSector length isDir)
      fun _ => 0 := fun _ _ => .still fun _ hm => .inodeCreate (hm.freeMapLive hH) _ _ _
  rw [freeMapCreate, wp_bind, wp_getMem]
  refine wp_seq ((hcreate _ _).run hw) fun ok w₁ h₁ => ?_
  split
  · exact (wp_stop _).mpr trivial
  refine wp_seq ((Handles.inodeOpen _).run h₁) fun r w₂ h₂ => ?_
  refine wp_seq ((Handles.fileOpen hH r).run h₂) fun f w₃ h₃ => ?_
  cases f with
  | none => exact (wp_stop _).mpr trivial
  | some f =>
    rw [wp_bind, wp_getMem, wp_bind, wp_setMem, wp_bind]
    have h₄ : Counts (atStart n f) 0 { w₃.mem with freeMapFile := some f } :=
      h₃.repack (by simp [atStart, atRest]) rfl rfl rfl rfl rfl h₃.cwd h₃.fsSize
    refine wp_mono (Still.bitmapWrite (h₄.freeMapLive (atStart_anchored n f)) _ (.refl _))
      (fun ok w₅ hs => ?_) fun _ _ _ => trivial
    split
    · exact (wp_pure _).mpr ⟨f, h₄.steady hs⟩
    · exact (wp_stop _).mpr trivial

/-- `do_format` leaves no inode in memory. -/
theorem wp_doFormat_counts (hw : Counts (atRest n none) 0 w.mem) :
    wp .any doFormat (fun _ w' => ∃ file, Counts (atRest n file) 0 w'.mem) (fun _ _ => True) w := by
  rw [doFormat]
  refine wp_seq (wp_freeMapCreate_counts hw) ?_
  rintro _ w₁ ⟨f, h₁⟩
  have hH := atStart_anchored n f
  refine wp_seq ((Handles.dirCreate hH _ _).run h₁) fun ok w₂ h₂ => ?_
  split
  · exact (wp_stop _).mpr trivial
  rw [freeMapClose, wp_bind, wp_getMem, h₂.freeMapFile]
  have hmem : Counts (atRest n (some f)) (0 + {f.inode}) w₂.mem :=
    h₂.repack (by simp [atStart, atRest]) rfl rfl rfl rfl h₂.freeMapFile h₂.cwd h₂.fsSize
  exact wp_mono (wp_fileClose_counts hmem (h₂.freeMapLive hH)) (fun _ _ h => ⟨some f, h⟩)
    fun _ _ _ => trivial

/-- `free_map_open` -/
theorem wp_freeMapOpen_counts {file : Option File} (hw : Counts (atRest n file) 0 w.mem) :
    wp .any freeMapOpen (fun _ w' => ∃ f, Counts (atStart n f) 0 w'.mem) (fun _ _ => True) w := by
  rw [freeMapOpen]
  refine wp_seq ((Handles.inodeOpen _).run hw) fun r w₁ h₁ => ?_
  have hnone : ∀ w, wp .any (do
      inodeClose r
      return none) (fun (f : Option File) _ => f = none) (fun _ _ => True) w := fun w => by
    exact wp_seq (wp_true _) fun _ _ _ => (wp_pure _).mpr rfl
  have hopen : wp .any (fileOpen r) (fun f w' => f = none ∨ ∃ p, r = some p ∧ f = some ⟨p, 0, false⟩ ∧
      w' = w₁) (fun _ _ => True) w₁ := by
    rw [fileOpen, wp_bind, wp_malloc]
    intro allocated _
    cases r with
    | none => exact wp_mono_ret (hnone w₁) fun _ _ h => .inl h
    | some p =>
      cases allocated with
      | false => exact wp_mono_ret (hnone w₁) fun _ _ h => .inl h
      | true => exact (wp_pure _).mpr (.inr ⟨p, rfl, rfl, rfl⟩)
  refine wp_seq hopen ?_
  rintro f w₂ (rfl | ⟨p, rfl, rfl, rfl⟩)
  · exact (wp_stop _).mpr trivial
  · have h₂ : Counts (atStart n ⟨p, 0, false⟩) 0 { w₂.mem with freeMapFile := some ⟨p, 0, false⟩ } :=
      h₁.repack (by simp [atStart, atRest]) rfl rfl rfl rfl rfl h₁.cwd h₁.fsSize
    rw [wp_bind, wp_getMem, wp_bind, wp_setMem, wp_bind]
    refine wp_mono (Still.bitmapRead (h₂.freeMapLive (atStart_anchored n _)) _ (.refl _))
      (fun ok w₃ hs => ?_) fun _ _ _ => trivial
    split
    · exact (wp_pure _).mpr ⟨_, h₂.steady hs⟩
    · exact (wp_stop _).mpr trivial

theorem Blank.counts (h : Blank w) :
    Counts (atRest w.mem.fsSize none) 0 { w.mem with openInodes := [] } where
  count p i hi := by simp [h.heap] at hi
  gone p _ := Multiset.notMem_zero p
  used p i hi := by simp [h.heap] at hi
  fresh p _ := h.heap p
  listed := nofun
  nodup := List.nodup_nil
  freeMapFile := h.freeMapFile
  cwd := h.cwd
  fsSize := rfl

/-- **After the start only the file of the free map is open.** -/
theorem wp_filesysInit_counts (h : Blank w) (format : Bool) :
    wp .any (filesysInit format) (fun _ w' => ∃ f, Counts (atStart w.mem.fsSize f) 0 w'.mem)
      (fun _ _ => True) w := by
  rw [filesysInit, wp_bind, wp_getMem, wp_bind, wp_setMem, wp_bind]
  refine wp_mono (Still.freeMapInit _ (.refl _)) (fun _ w₁ hs => ?_) fun _ _ _ => trivial
  have h₁ := h.counts.steady hs
  split
  · refine wp_seq (wp_doFormat_counts h₁) ?_
    rintro _ w₂ ⟨file, h₂⟩
    exact wp_freeMapOpen_counts h₂
  · exact wp_freeMapOpen_counts h₁

end Pintos.Filesys
