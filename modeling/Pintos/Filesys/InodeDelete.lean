import Pintos.Filesys.InodeWrite

/-!
# Deleting an inode

`inode_delete` gives back the sectors that the first blocks of a page need, each once: the leaves
before the index block above them.  `Released R` is the step that gives back exactly the sectors in
`R`; it composes, so the specification of a loop is a union over its passes.
-/

namespace Pintos.Filesys

open PtrForest

variable {P : Policy} {E : Stop → World → Prop} {w w' w'' : World} {R R' : ℕ → Prop}

/-- Exactly the sectors in `R` have been given back. -/
structure Released (R : ℕ → Prop) (w w' : World) : Prop where
  step : FmStep w w'
  bits : ∀ t, w'.mem.freeMap.bits t = true ↔ w.mem.freeMap.bits t = true ∧ ¬R t
  sync : Synced w → Synced w'

theorem Released.refl (h : FmOk w) (hR : ∀ t, ¬R t) : Released R w w :=
  ⟨.refl h, fun t => by simp [hR t], id⟩

theorem Released.trans (h : Released R w w') (h' : Released R' w' w'') :
    Released (fun t => R t ∨ R' t) w w'' where
  step := h.step.trans h'.step
  bits t := by
    rw [h'.bits, h.bits, not_or, and_assoc]
  sync hs := h'.sync (h.sync hs)

theorem Released.congr (h : Released R w w') (hR : ∀ t, R t ↔ R' t) : Released R' w w' :=
  ⟨h.step, fun t => by rw [h.bits, hR], h.sync⟩

theorem Released.allocated (h : Released R w w') (t : ℕ) : Allocated w' t ↔ Allocated w t ∧ ¬R t := by
  unfold Allocated
  rw [h.step.fsSize, h.bits, and_assoc]

theorem FmStep.sec_fm (h : FmStep w w') (hw : FmOk w) {f : File} {i : Inode} {k : ℕ} {π : List ℕ}
    (hf : w.mem.freeMapFile = some f) (hi : w.mem.heap f.inode = some i) (hn : Node pageShape k π) :
    sec w'.disk (i.data.word k) π = sec w.disk (i.data.word k) π := by
  obtain ⟨i', hi'⟩ := hw.file f hf
  obtain rfl : i = i' := Option.some.inj (hi.symm.trans hi'.heap)
  refine sec_of_data_change hi'.forest (fun s hs => h.disk s ?_) hn
  rintro ⟨f₂, i₂, k₂, hf₂, hi₂, hk₂, heq, _⟩
  obtain rfl : f = f₂ := Option.some.inj (hf.symm.trans hf₂)
  obtain rfl : i = i₂ := Option.some.inj (hi.symm.trans hi₂)
  exact hs k₂ hk₂ heq

theorem FmStep.node_eq (h : FmStep w w') (hw : FmOk w) : FmNode w' = FmNode w := by
  funext s
  refine propext ⟨?_, ?_⟩
  · rintro ⟨f, i, k, π, hf, hi, hn, heq, h0⟩
    rw [h.freeMapFile] at hf
    rw [h.heap] at hi
    exact ⟨f, i, k, π, hf, hi, hn, (h.sec_fm hw hf hi hn).symm.trans heq, h0⟩
  · rintro ⟨f, i, k, π, hf, hi, hn, heq, h0⟩
    exact ⟨f, i, k, π, h.freeMapFile.trans hf, (congrFun h.heap _).trans hi, hn,
      (h.sec_fm hw hf hi hn).trans heq, h0⟩

/-- A forest outside the free map file stays where it is while sectors are given back. -/
theorem FmStep.sec_eq {S : Shape} {f : ℕ → ℕ} {A : ℕ → Prop} (h : FmStep w w')
    (hok : Ok S (FmNode w) A w.disk f) {k : ℕ} {π : List ℕ} (hn : Node S k π) :
    sec w'.disk (f k) π = sec w.disk (f k) π :=
  sec_congr fun m _ hne => h.disk _ fun hd => (hok.alloc k _ (hn.take m) hne).2 (FmNode.of_data hd)

/-- What is not given back stays well formed. -/
theorem Released.forest {S : Shape} {f : ℕ → ℕ} (h : Released R w w') (hw : FmOk w)
    (hok : Ok S (FmNode w) (Allocated w) w.disk f)
    (hR : ∀ k π, Node S k π → sec w.disk (f k) π ≠ 0 → ¬R (sec w.disk (f k) π)) :
    Ok S (FmNode w') (Allocated w') w'.disk f where
  alloc k π hn hne := by
    rw [h.step.sec_eq hok hn] at hne ⊢
    obtain ⟨hA, hD⟩ := hok.alloc k π hn hne
    rw [h.step.node_eq hw]
    exact ⟨(h.allocated _).mpr ⟨hA, hR k π hn hne⟩, hD⟩
  inj k π k' π' hn hn' heq hne := by
    rw [h.step.sec_eq hok hn, h.step.sec_eq hok hn'] at heq
    rw [h.step.sec_eq hok hn] at hne
    exact hok.inj k π k' π' hn hn' heq hne

/-- `free_map_release` of one sector outside the free map file. -/
theorem wp_freeMapRelease (hP : P.NoFail) (h : FmOk w) (hfile : w.mem.freeMapFile.isSome = true)
    {s : ℕ} (hs : Allocated w s) (h0 : s ≠ 0) (hn : ¬FmNode w s) {Q : Unit → World → Prop}
    (hQ : ∀ w', Released (fun t => t = s) w w' → Q () w') : wp P (freeMapRelease s 1) Q E w := by
  refine wp_freeMapReleaseWith (writesMap_bitmapWrite hP) h hfile hs h0 (fun f i k π hf hi hπ heq => ?_)
    fun w' hst hbits hsync => hQ w' ⟨hst, fun t => ?_, fun _ => hsync⟩
  · exact hn ⟨f, i, k, π, hf, hi, hπ, heq, h0⟩
  · rw [hbits]
    by_cases hts : t = s
    · rw [hts, Function.update_self]
      simp
    · rw [Function.update_of_ne hts]
      simp [hts]

/-! ### `delete_indir` -/

/-- The sectors of a tree that its first `num` leaves need. -/
def TreeNeeded (level num : ℕ) (disk : ℕ → Sector) (ent t : ℕ) : Prop :=
  ∃ π, Node (.tree level 128) 0 π ∧ firstLeaf level π < num ∧ sec disk ent π = t

/-- A needed node is there if the leaves are. -/
theorem needed_ne_zero {level num ent : ℕ} {disk : ℕ → Sector}
    (hleaf : ∀ π, Node (.tree level 128) 0 π → π.length = level → pathIndex π < num →
      sec disk ent π ≠ 0) {π : List ℕ} (hn : Node (.tree level 128) 0 π)
    (h : firstLeaf level π < num) : sec disk ent π ≠ 0 := by
  have hlen : π.length ≤ level := hn.length
  have htotal : (π ++ List.replicate (level - π.length) 0).length = level := by
    rw [List.length_append, List.length_replicate]
    omega
  have hnode : Node (.tree level 128) 0 (π ++ List.replicate (level - π.length) 0) := by
    refine ⟨Nat.one_pos, htotal.le, fun i hi => ?_⟩
    rcases List.mem_append.mp hi with hi | hi
    · exact hn.fan i hi
    · rw [List.eq_of_mem_replicate hi]
      exact Nat.zero_lt_succ 127
  have := sec_take_ne_zero (hleaf _ hnode htotal h) π.length
  rwa [List.take_left] at this

theorem firstLeaf_lt {level : ℕ} {π : List ℕ} (hn : Node (.tree level 128) 0 π) : firstLeaf level π < 128 ^ level := by
  have hlen : (π ++ List.replicate (level - π.length) 0).length = level := by
    have : π.length ≤ level := hn.length
    rw [List.length_append, List.length_replicate]
    omega
  have := pathIndex_lt (π := π ++ List.replicate (level - π.length) 0) fun i hi => by
    rcases List.mem_append.mp hi with hi | hi
    · exact hn.fan i hi
    · rw [List.eq_of_mem_replicate hi]
      exact Nat.zero_lt_succ 127
  rwa [hlen] at this

/-- A path from a pointer of an index block is one from the block. -/
theorem node_cons {level i : ℕ} {π : List ℕ} (hi : i < 128) (hn : Node (.tree level 128) 0 π) :
    Node (.tree (level + 1) 128) 0 (i :: π) := by
  refine ⟨Nat.one_pos, Nat.succ_le_succ hn.length, fun j hj => ?_⟩
  rcases List.mem_cons.mp hj with rfl | hj
  · exact hi
  · exact hn.fan j hj

theorem TreeNeeded.congr {level num ent t : ℕ} {disk disk' : ℕ → Sector}
    (h : ∀ π, Node (.tree level 128) 0 π → sec disk ent π = sec disk' ent π) :
    TreeNeeded level num disk ent t ↔ TreeNeeded level num disk' ent t :=
  exists_congr fun π => and_congr_right fun hn => by rw [h π hn]

/-- The sectors given back by the passes of the loop of `delete_indir` before pass `j`. -/
def PassesNeeded (level num : ℕ) (disk : ℕ → Sector) (b : Sector) (j t : ℕ) : Prop :=
  ∃ i, i < j ∧ ∃ π, Node (.tree level 128) 0 π ∧ i * 128 ^ level + firstLeaf level π < num ∧
    sec disk (b.word i) π = t

/-- What a pass gives back. -/
theorem passesNeeded_succ {level num j t : ℕ} {disk : ℕ → Sector} {b : Sector} :
    PassesNeeded level num disk b (j + 1) t ↔ PassesNeeded level num disk b j t ∨
      TreeNeeded level (min (num - j * 128 ^ level) (128 ^ level)) disk (b.word j) t := by
  constructor
  · rintro ⟨i, hi, π, hn, hidx, heq⟩
    by_cases hij : i = j
    · subst hij
      have := firstLeaf_lt hn
      exact .inr ⟨π, hn, by omega, heq⟩
    · exact .inl ⟨i, by omega, π, hn, hidx, heq⟩
  · rintro (⟨i, hi, h⟩ | ⟨π, hn, hidx, heq⟩)
    · exact ⟨i, by omega, h⟩
    · exact ⟨j, by omega, π, hn, by omega, heq⟩

/-- The loop over the pointers and then the index block itself. -/
theorem treeNeeded_succ {level num ent t : ℕ} {disk : ℕ → Sector} (h0 : ent ≠ 0) (hnum : 0 < num)
    (hmax : (num + 128 ^ level - 1) / 128 ^ level ≤ 128) :
    TreeNeeded (level + 1) num disk ent t ↔
      PassesNeeded level num disk (disk ent) ((num + 128 ^ level - 1) / 128 ^ level) t ∨ t = ent := by
  have hpos : 0 < 128 ^ level := by positivity
  constructor
  · rintro ⟨π, hn, hidx, heq⟩
    cases π with
    | nil => exact .inr heq.symm
    | cons i π =>
      have hlen : π.length ≤ level := Nat.le_of_succ_le_succ hn.length
      rw [firstLeaf_cons hlen] at hidx
      rw [sec_cons h0] at heq
      refine .inl ⟨i, ?_, π, ⟨Nat.one_pos, hlen, fun j hj => hn.fan j (List.mem_cons_of_mem _ hj)⟩, hidx, heq⟩
      rw [Nat.lt_div_iff_mul_lt hpos]
      omega
  · rintro (⟨i, hi, π, hn, hidx, heq⟩ | rfl)
    · refine ⟨i :: π, node_cons (by omega) hn, ?_, ?_⟩
      · rw [firstLeaf_cons hn.length]
        exact hidx
      · rw [sec_cons h0]
        exact heq
    · exact ⟨[], ⟨Nat.one_pos, Nat.zero_le _, by simp⟩, by rwa [firstLeaf_nil], rfl⟩

/-- Where the leaves of a tree are there, those under a pointer that its first `num` leaves need are. -/
theorem leaf_below {level num ent j : ℕ} {disk : ℕ → Sector} (h0 : ent ≠ 0) (hj : j < 128)
    (hleaf : ∀ π, Node (.tree (level + 1) 128) 0 π → π.length = level + 1 → pathIndex π < num →
      sec disk ent π ≠ 0) {π : List ℕ} (hn : Node (.tree level 128) 0 π) (hl : π.length = level)
    (hidx : j * 128 ^ level + pathIndex π < num) : sec disk ((disk ent).word j) π ≠ 0 := by
  rw [← sec_below disk h0]
  exact hleaf (j :: π) (node_cons hj hn) (by rw [List.length_cons, hl]) (by rwa [pathIndex, hl])

/-- **`delete_indir`** gives back what the first `num` leaves of a tree need. -/
theorem wp_deleteIndir (hP : P.NoFail) (level : ℕ) (hlevel : level ≤ 2) :
    ∀ (ent num : ℕ) (w : World) (Q : Unit → World → Prop), FmOk w →
      w.mem.freeMapFile.isSome = true →
      Ok (.tree level 128) (FmNode w) (Allocated w) w.disk (fun _ => ent) →
      (∀ π, Node (.tree level 128) 0 π → π.length = level → pathIndex π < num →
        sec w.disk ent π ≠ 0) → 0 < num → num ≤ 128 ^ level →
      (∀ w', Released (TreeNeeded level num w.disk ent) w w' → Q () w') →
      wp P (deleteIndir level ent num) Q E w := by
  induction level with
  | zero =>
    intro ent num w Q hw hfile hok hleaf hnum _ hQ
    have hroot : Node (.tree 0 128) 0 [] := ⟨Nat.one_pos, Nat.zero_le _, by simp⟩
    have h0 : ent ≠ 0 := needed_ne_zero hleaf hroot (by rwa [firstLeaf_nil])
    obtain ⟨hA, hD⟩ := hok.alloc 0 [] hroot h0
    rw [deleteIndir]
    refine wp_freeMapRelease hP hw hfile hA h0 hD fun w' hr => hQ w' (hr.congr fun t => ?_)
    constructor
    · rintro rfl
      exact ⟨[], hroot, by rwa [firstLeaf_nil], rfl⟩
    · rintro ⟨π, hn, _, rfl⟩
      rw [List.length_eq_zero_iff.mp (Nat.le_zero.mp hn.length)]
  | succ level ih =>
    intro ent num w Q hw hfile hok hleaf hnum0 hnum hQ
    have hpos : 0 < 128 ^ level := by positivity
    have hroot : Node (.tree (level + 1) 128) 0 [] := ⟨Nat.one_pos, Nat.zero_le _, by simp⟩
    have h0 : ent ≠ 0 := needed_ne_zero hleaf hroot (by rwa [firstLeaf_nil])
    obtain ⟨hA, hD⟩ := hok.alloc 0 [] hroot h0
    have hchunk : (if level + 1 = 1 then 1 else 128) = 128 ^ level := by
      obtain rfl | rfl : level = 0 ∨ level = 1 := by omega
      · rfl
      · rfl
    have hmax : (num + 128 ^ level - 1) / 128 ^ level ≤ 128 := by
      rw [Nat.div_le_iff_le_mul_add_pred hpos, Nat.mul_comm, ← pow_succ']
      omega
    have hblock := hok.block h0
    have hbelow : ∀ i π, Node (.block level 128) i π → sec w.disk ((w.disk ent).word i) π ≠ 0 →
        sec w.disk ((w.disk ent).word i) π ≠ ent := fun i π hn hne =>
      Grow.root_not_below hok h0 (Grow.same hblock fun _ _ _ _ => rfl) hn hne
    have hsome : ∀ w', FmStep w w' → w'.mem.freeMapFile.isSome = true := fun w' h => by
      rw [h.freeMapFile]
      exact hfile
    rw [deleteIndir, if_neg (by omega), hchunk]
    simp only [wp_bind, wp_bufferCacheRead, if_pos (show ent < w.mem.fsSize from hA.1)]
    refine wp_forUpTo (fun j rem w' => Released (PassesNeeded level num w.disk (w.disk ent) j) w w' ∧
      rem = num - j * 128 ^ level) (fun j rem w₁ hj hI => ?_) (fun rem w₁ hI => ?_) _ 0 num w
      (Nat.zero_add _) ⟨.refl hw ?_, by simp⟩
    · -- a pass gives back the tree under its pointer
      obtain ⟨hrel, rfl⟩ := hI
      have hj' : j < 128 := by omega
      have hlt := (Nat.lt_div_iff_mul_lt hpos).mp hj
      have hchild := hblock.root (k := j) (by exact hj')
      have hsec : ∀ π, Node (.tree level 128) 0 π →
          sec w₁.disk ((w.disk ent).word j) π = sec w.disk ((w.disk ent).word j) π :=
        fun π hn => hrel.step.sec_eq hchild hn
      rw [wp_bind]
      refine ih (by omega) _ _ w₁ _ hrel.step.ok (hsome w₁ hrel.step)
        (hrel.forest hw hchild fun _ π hn hne => ?_) (fun π hn hl hidx => ?_) (by omega) (by omega)
        fun w₂ hrel₂ => (wp_pure _).mpr ⟨(hrel.trans hrel₂).congr fun t => ?_, ?_⟩
      · -- what the earlier passes have given back is not under this pointer
        rintro ⟨i, hi, ρ, hρ, _, heq⟩
        have hn' : Node (.block level 128) j π := ⟨hj', hn.length, hn.fan⟩
        have := (hblock.inj i ρ j π ⟨by show i < 128; omega, hρ.length, hρ.fan⟩ hn' heq
          (by rw [heq]; exact hne)).1
        omega
      · rw [hsec π hn]
        exact leaf_below h0 hj' hleaf hn hl (by omega)
      · rw [passesNeeded_succ, TreeNeeded.congr hsec]
      · rw [Nat.succ_mul]
        omega
    · -- after the loop the block itself is given back
      obtain ⟨hrel, rfl⟩ := hI
      have hcover : num ≤ (num + 128 ^ level - 1) / 128 ^ level * 128 ^ level := by
        have := Nat.lt_div_mul_add (a := num + 128 ^ level - 1) hpos
        omega
      have hkept : ¬PassesNeeded level num w.disk (w.disk ent)
          ((num + 128 ^ level - 1) / 128 ^ level) ent := by
        rintro ⟨i, hi, π, hn, _, heq⟩
        exact hbelow i π ⟨by show i < 128; omega, hn.length, hn.fan⟩ (by rw [heq]; exact h0) heq
      simp only [Nat.sub_eq_zero_of_le hcover, ne_eq, not_true_eq_false, if_false]
      exact wp_freeMapRelease hP hrel.step.ok (hsome w₁ hrel.step)
        ((hrel.allocated _).mpr ⟨hA, hkept⟩) h0 (by rw [hrel.step.node_eq hw]; exact hD)
        fun w₂ hrel₂ => hQ w₂ ((hrel.trans hrel₂).congr fun t => (treeNeeded_succ h0 hnum0 hmax).symm)
    · rintro t ⟨i, hi, _⟩
      exact absurd hi (Nat.not_lt_zero i)

/-! ### `inode_delete` -/

/-- The sectors of a page that its first `num` data blocks need. -/
def PageNeeded (num : ℕ) (disk : ℕ → Sector) (d : InodeDisk) (t : ℕ) : Prop :=
  ∃ k π, NeededNode num k π ∧ sec disk (d.word k) π = t

/-- The needed sectors lie under the three kinds of roots. -/
theorem pageNeeded_iff {num : ℕ} (hnum : num ≤ 16635) (disk : ℕ → Sector) (d : InodeDisk) (t : ℕ) :
    PageNeeded num disk d t ↔ (∃ j, j < min num 123 ∧ d.dirBlock j = t) ∨
      TreeNeeded 1 (min (num - 123) 128) disk d.indirBlock t ∨
      TreeNeeded 2 (num - 251) disk d.dIndirBlock t := by
  constructor
  · rintro ⟨k, π, ⟨j, hj, rfl, m, rfl⟩, heq⟩
    rcases leafRoot_cases j with ⟨hd, hr, hp⟩ | ⟨hd, hd', hr, hp⟩ | ⟨hd, hr, hp⟩
    · refine .inl ⟨j, by omega, ?_⟩
      rw [hr, hp, List.take_nil] at heq
      exact heq
    · refine .inr (.inl ⟨(leafPath j).take m, ?_, ?_, ?_⟩)
      · refine ⟨Nat.one_pos, (List.length_take_le' m _).trans (by rw [hp]; exact le_refl 1),
          fun i hi => ?_⟩
        have := List.mem_of_mem_take hi
        rw [hp, List.mem_singleton] at this
        show i < 128
        omega
      · rw [hp]
        match m with
        | 0 =>
          rw [List.take_zero, firstLeaf_nil]
          omega
        | m + 1 =>
          rw [List.take_succ_cons, List.take_nil, firstLeaf_cons (Nat.zero_le _), firstLeaf_nil,
            pow_zero]
          omega
      · rw [hr] at heq
        exact heq
    · refine .inr (.inr ⟨(leafPath j).take m, ?_, ?_, ?_⟩)
      · refine ⟨Nat.one_pos, (List.length_take_le' m _).trans (by rw [hp]; exact le_refl 2),
          fun i hi => ?_⟩
        have := List.mem_of_mem_take hi
        rw [hp] at this
        simp only [List.mem_cons, List.not_mem_nil, or_false] at this
        show i < 128
        omega
      · rw [hp]
        match m with
        | 0 =>
          rw [List.take_zero, firstLeaf_nil]
          omega
        | 1 =>
          rw [List.take_succ_cons, List.take_zero, firstLeaf_cons (Nat.zero_le _), firstLeaf_nil,
            pow_one]
          omega
        | m + 2 =>
          rw [List.take_succ_cons, List.take_succ_cons, List.take_nil, firstLeaf_cons (by simp),
            firstLeaf_cons (Nat.zero_le _), firstLeaf_nil, pow_one, pow_zero]
          omega
      · rw [hr] at heq
        exact heq
  · rintro (⟨j, hj, heq⟩ | ⟨π, hn, hidx, heq⟩ | ⟨π, hn, hidx, heq⟩)
    · rcases leafRoot_cases j with ⟨_, hr, hp⟩ | ⟨_, _, _, _⟩ | ⟨_, _, _⟩
      · refine ⟨j + 2, [], ⟨j, by omega, hr, 0, rfl⟩, heq⟩
      · omega
      · omega
    · refine ⟨1, π, (indir_needed ⟨by decide, hn.length, hn.fan⟩ (by omega) hidx).mono ?_, heq⟩
      omega
    · exact ⟨0, π, (dIndir_needed ⟨by decide, hn.length, hn.fan⟩ hidx).mono (by omega), heq⟩

/-- The leaves of `indir_block` are the data blocks from 123 on. -/
theorem indir_leaf {disk : ℕ → Sector} {d : InodeDisk} {num : ℕ} (hnum : num ≤ 16635)
    (h : ∀ i, i < num → dataSec disk d i ≠ 0) (π : List ℕ) (hl : π.length = 1)
    (hidx : pathIndex π < min (num - 123) 128) : sec disk d.indirBlock π ≠ 0 := by
  match π, hl with
  | [i], _ =>
    simp only [pathIndex, List.length_nil, pow_zero] at hidx
    have := h (123 + i) (by omega)
    rwa [dataSec_indir _ _ (by omega) (by omega), Nat.add_sub_cancel_left] at this

/-- The leaves of `d_indir_block` are the data blocks from 251 on. -/
theorem dIndir_leaf {disk : ℕ → Sector} {d : InodeDisk} {num : ℕ}
    (h : ∀ i, i < num → dataSec disk d i ≠ 0) (π : List ℕ) (hn : Node (.tree 2 128) 0 π)
    (hl : π.length = 2) (hidx : pathIndex π < num - 251) : sec disk d.dIndirBlock π ≠ 0 := by
  match π, hl with
  | [a, b], _ =>
    have hb : b < 128 := hn.fan b (by simp)
    simp only [pathIndex, List.length_nil, List.length_singleton, pow_zero, pow_one] at hidx
    have := h (251 + (a * 128 + b)) (by omega)
    have h₁ : (a * 128 + b) / 128 = a := by omega
    have h₂ : (a * 128 + b) % 128 = b := by omega
    rwa [dataSec_dIndir _ _ (by omega), Nat.add_sub_cancel_left, h₁, h₂] at this

section Delete

variable {p : ℕ} {i : Inode}

/-- A direct block does not lie under `indir_block` or `d_indir_block`. -/
theorem direct_not_below {D A : ℕ → Prop} {disk : ℕ → Sector} (hok : Ok pageShape D A disk i.data.word) {j k : ℕ}
    (hj : j < 123) (hk : k < 2) {π : List ℕ} (hn : Node pageShape k π) (hne : sec disk (i.data.word k) π ≠ 0) :
    i.data.dirBlock j ≠ sec disk (i.data.word k) π := by
  intro heq
  have hnode : Node pageShape (j + 2) [] := ⟨by show j + 2 < 125; omega, Nat.zero_le _, by simp⟩
  have := (hok.inj _ [] _ π hnode hn heq (by show i.data.dirBlock j ≠ 0; rw [heq]; exact hne)).1
  omega

/-- The loop over the direct blocks. -/
theorem wp_deleteDirect (hP : P.NoFail) (hw : FmOk w) (hfile : w.mem.freeMapFile.isSome = true)
    (hok : Ok pageShape (FmNode w) (Allocated w) w.disk i.data.word) {n : ℕ} (hn : n ≤ 123)
    (hblocks : ∀ j, j < n → dataSec w.disk i.data j ≠ 0) :
    wp P (Prog.forUpTo (fun k (_ : Unit) => do
        freeMapRelease (i.data.dirBlock k) 1
        return (.inl () : Unit ⊕ Empty)) n 0 ())
      (fun _ w' => Released (fun t => ∃ k, k < n ∧ i.data.dirBlock k = t) w w') E w := by
  refine wp_forUpTo (fun j (_ : Unit) w' => Released (fun t => ∃ k, k < j ∧ i.data.dirBlock k = t) w w')
    (fun j _ w₁ hj hI => ?_) (fun _ w₁ hI => hI) _ 0 () w (Nat.zero_add _)
    (.refl hw (by rintro t ⟨k, hk, _⟩; exact absurd hk (Nat.not_lt_zero k)))
  have hnode : ∀ k, k < 123 → Node pageShape (k + 2) [] := fun k hk =>
    ⟨by show k + 2 < 125; omega, Nat.zero_le _, by simp⟩
  have h0 : i.data.word (j + 2) ≠ 0 := by
    have := hblocks j hj
    rcases leafRoot_cases j with ⟨_, hr, hp⟩ | ⟨_, _, _, _⟩ | ⟨_, _, _⟩
    · rw [dataSec, hr, hp] at this
      exact this
    · omega
    · omega
  obtain ⟨hA, hD⟩ := hok.alloc _ _ (hnode j (by omega)) h0
  rw [wp_bind]
  refine wp_freeMapRelease hP hI.step.ok (by rw [hI.step.freeMapFile]; exact hfile)
    ((hI.allocated _).mpr ⟨hA, ?_⟩) h0 (by rw [hI.step.node_eq hw]; exact hD)
    fun w₂ hr => (wp_pure _).mpr ((hI.trans hr).congr fun t => ?_)
  · rintro ⟨k, hk, heq⟩
    have := (hok.inj _ [] _ [] (hnode k (by omega)) (hnode j (by omega)) heq (by
      show i.data.dirBlock k ≠ 0
      rw [heq]
      exact h0)).1
    omega
  · constructor
    · rintro (⟨k, hk, heq⟩ | rfl)
      · exact ⟨k, by omega, heq⟩
      · exact ⟨j, by omega, rfl⟩
    · rintro ⟨k, hk, heq⟩
      by_cases hkj : k = j
      · subst hkj
        exact .inr heq.symm
      · exact .inl ⟨k, by omega, heq⟩

/-- The tree under `indir_block` or `d_indir_block`, where the file has blocks in it. -/
theorem wp_deleteRoot (hP : P.NoFail) (hw : FmOk w) (hfile : w.mem.freeMapFile.isSome = true)
    (hok : Ok pageShape (FmNode w) (Allocated w) w.disk i.data.word) {level k : ℕ} (hk : k < 125)
    (hlevel : pageShape.level k = level) (hle : level ≤ 2) {w₁ : World} (hr : Released R w w₁)
    (hR : ∀ π, Node pageShape k π → sec w.disk (i.data.word k) π ≠ 0 → ¬R (sec w.disk (i.data.word k) π))
    {numSec max : ℤ} (h0 : 0 ≤ max) (hmax : max.toNat ≤ 128 ^ level)
    (hleaf : ∀ π, Node (.tree level 128) 0 π → π.length = level → pathIndex π < max.toNat →
      sec w.disk (i.data.word k) π ≠ 0) {f : ℤ → Fs α} {Q : α → World → Prop}
    (hf : ∀ rest w', rest = numSec - max →
      Released (fun t => R t ∨ TreeNeeded level max.toNat w.disk (i.data.word k) t) w w' → wp P (f rest) Q E w') :
    wp P (if max > 0 then do
        deleteIndir level (i.data.word k) max.toNat
        let numSec ← pure (numSec - max)
        f numSec
      else do
        let numSec ← pure numSec
        f numSec) Q E w₁ := by
  by_cases hpos : 0 < max
  · rw [if_pos hpos]
    have htree := hr.forest hw (hok.root (by exact hk)) fun _ π hπ hne => hR π ⟨hk, hπ.length, hπ.fan⟩ hne
    have hsec : ∀ π, Node (.tree level 128) 0 π →
        sec w₁.disk (i.data.word k) π = sec w.disk (i.data.word k) π := fun π hπ =>
      hr.step.sec_eq (hok.root (k := k) (by exact hk)) (hlevel ▸ hπ)
    rw [wp_bind]
    refine wp_deleteIndir hP level hle _ _ w₁ _ hr.step.ok (by rw [hr.step.freeMapFile]; exact hfile)
      (hlevel ▸ htree) (fun π hπ hl hidx => ?_) (by omega) hmax fun w₂ hr₂ => ?_
    · rw [hsec π hπ]
      exact hleaf π hπ hl hidx
    · rw [wp_bind, wp_pure]
      exact hf _ _ rfl ((hr.trans hr₂).congr fun t => or_congr_right (TreeNeeded.congr hsec))
  · rw [if_neg hpos, wp_bind, wp_pure]
    refine hf _ _ (by omega) (hr.congr fun t => ?_)
    have hnone : ¬TreeNeeded level max.toNat w.disk (i.data.word k) t := by
      rintro ⟨π, _, hidx, _⟩
      omega
    simp [hnone]

/-- **`inode_delete`** gives back the sectors that the file needs, each once. -/
theorem wp_inodeDelete (hP : P.NoFail) {len : ℕ} (hw : FmOk w)
    (hfile : w.mem.freeMapFile.isSome = true) (hi : w.mem.heap p = some i)
    (hlen : i.data.length = len) (hmax : len ≤ 8517120)
    (hok : Ok pageShape (FmNode w) (Allocated w) w.disk i.data.word)
    (hblocks : ∀ j, j < (len + 511) / 512 → dataSec w.disk i.data j ≠ 0) {Q : Bool → World → Prop}
    (hQ : ∀ w', Released (PageNeeded ((len + 511) / 512) w.disk i.data) w w' → Q true w') :
    wp P (inodeDelete p) Q E w := by
  rw [inodeDelete, wp_bind, wp_deref_some hi, if_neg (by omega), hlen, bytesToSectors_of_le (by omega)]
  set n := (len + 511) / 512 with hn
  have hn' : n ≤ 16635 := by omega
  have hdirect : (min ((n : ℕ) : ℤ) 123).toNat = min n 123 := by omega
  have hindir : (min (((n : ℕ) : ℤ) - min ((n : ℕ) : ℤ) 123) 128).toNat = min (n - 123) 128 := by omega
  refine wp_seq (wp_deleteDirect hP hw hfile hok (by omega) fun j hj => hblocks j (by omega)) ?_
  rintro (_ | r) w₁ hr₁
  · dsimp only
    refine wp_deleteRoot hP hw hfile hok (by decide) (show pageShape.level 1 = 1 from rfl) (by decide) hr₁ ?_
      (by omega) (by omega) (fun π hπ hl hidx => ?_) fun rest w₂ hrest hr₂ => ?_
    · rintro π hπ hne ⟨k, hk, heq⟩
      exact direct_not_below hok (by omega) (by decide) hπ hne heq
    · exact indir_leaf hn' hblocks π hl (hindir ▸ hidx)
    have hmin : min rest 16384 = rest := by omega
    have hnum : rest.toNat = n - 251 := by omega
    refine wp_deleteRoot hP hw hfile hok (by decide) (show pageShape.level 0 = 2 from rfl) (by decide) hr₂ ?_
      (by omega) (by omega) (fun π hπ hl hidx => ?_) fun rest' w₃ hrest' hr₃ => ?_
    · rintro π hπ hne (⟨k, hk, heq⟩ | ⟨ρ, hρ, _, heq⟩)
      · exact direct_not_below hok (by omega) (by decide) hπ hne heq
      · have := (hok.inj 1 ρ 0 π ⟨by decide, hρ.length, hρ.fan⟩ hπ heq (by rw [heq]; exact hne)).1
        omega
    · exact dIndir_leaf hblocks π hπ hl (by omega)
    rw [if_neg (by omega), wp_pure]
    refine hQ w₃ (hr₃.congr fun t => ?_)
    rw [pageNeeded_iff hn', or_assoc, hdirect, hindir, hmin, hnum]
    rfl
  · exact r.elim

end Delete

/-- The number of sectors of a hollow inode overflows, and none is given back. -/
theorem wp_inodeDelete_hollow {p : ℕ} {i : Inode} (hi : w.mem.heap p = some i)
    (hlen : 2147483136 < i.data.length) {Q : Bool → World → Prop} (hQ : Q true w) :
    wp P (inodeDelete p) Q E w := by
  have hnum := bytesToSectors_overflow hlen (toInt32_bounds (Block.word_lt i.data 125)).2
  rw [inodeDelete]
  simp only [wp_bind, wp_deref_some hi]
  rw [if_neg (by omega)]
  generalize bytesToSectors i.data.length = n at hnum
  have h₁ : (min n 123).toNat = 0 := by omega
  have h₂ : n - min n 123 = 0 := by omega
  simp only [h₁, h₂, Prog.forUpTo, wp_bind, wp_ret]
  simpa using hQ

end Pintos.Filesys
