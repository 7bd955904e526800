import Pintos.Filesys.DirectoryRuns
import Pintos.Filesys.Filesys

/-!
# The record of the parent directory

Record 0 of a directory is for its parent.  `dir_create` and the `dir_add` that puts a directory into its
parent write it from a local variable of which they set the sector number only, so that `in_use` is what
the stack held.  If that byte is zero, the next `dir_add` finds record 0 free; if it is not, record 0 stays
as it was written.
-/

namespace Pintos.Filesys

open SlotTable

variable {P : Policy} {E : Stop → World → Prop} {w w' : World} {live : Set ℕ} {p s c parent : ℕ} {pos : ℤ}

/-! ### Lookups -/

/-- `inode_open` of any sector of the device gives a handle on that sector. -/
theorem wp_inodeOpen_sector (hP : P.NoFail) (h : MemOk w.mem) :
    wp P (inodeOpen s) (fun r w' => ∃ q, r = some q ∧ Holds w' q s) (fun _ _ => w.mem.fsSize ≤ s) w := by
  simp only [inodeOpen, wp_bind, wp_getMem]
  apply wp_findOpen h
  cases hopen : w.mem.openInode s with
  | some q =>
    obtain ⟨i, hi, hs⟩ := h.heap_of_openInode hopen
    simp only [inodeReopen, wp_bind, wp_deref_some hi, wp_assign, hi, wp_pure]
    exact ⟨q, rfl, _, Function.update_self _ _ _, hs⟩
  | none =>
    simp only [wp_bind, wp_malloc]
    intro b hb
    rw [hP b hb, if_pos rfl]
    simp only [wp_bind, wp_bufferCacheRead, wp_getMem, wp_setMem, wp_pure]
    split
    · exact ⟨_, rfl, _, Function.update_self _ _ _, rfl⟩
    · next hs => exact Nat.le_of_not_lt hs

/-- `dir_lookup` of `..` opens the inode whose sector record 0 holds. -/
theorem wp_dirLookup_dotDot (hP : P.NoFail) (h : DirOpen live w p s) {e : DirEntry}
    (he : (entries w s)[0]? = some e) : wp P (dirLookup (some ⟨p, pos⟩) dotDot)
      (fun r w' => ∃ q, r = some q ∧ Holds w' q e.inodeSector) (fun _ _ => w.mem.fsSize ≤ e.inodeSector) w := by
  rw [dirLookup, if_pos rfl, wp_bind, wp_junk]
  intro g _
  rw [wp_bind]
  change wp P (inodeReadAt p 20 (20 * 0 : ℕ)) _ _ w
  refine wp_readRecord hP h (by omega) (fun l hl h20 => ?_) fun l hl _ => ?_
  · rw [he] at hl
    obtain rfl := Option.some.inj hl
    have hsec : DirEntry.inodeSector (Bytes.overlay l g) = DirEntry.inodeSector (Bytes.overlay l fun _ => 0) :=
      Bytes.le32_congr fun i hi => by
        unfold Bytes.overlay
        rw [List.getElem?_eq_getElem (by omega)]
        rfl
    rw [hsec]
    exact wp_inodeOpen_sector hP h.ok.mem
  · rw [he] at hl
    exact absurd hl (by simp)

/-! ### The names in a directory -/

/-- What the calls so far have put into the directory, by name. -/
def DirEvent.apply (m : List UInt8 → Option ℕ) : DirEvent → List UInt8 → Option ℕ
  | .add name c true => fun nm => if nm = name then some c else m nm
  | .remove name true => fun nm => if nm = name then none else m nm
  | _ => m

/-- The names that successful calls have added, and not removed since, with their sectors. -/
def added (evs : List DirEvent) : List UInt8 → Option ℕ := evs.foldl DirEvent.apply fun _ => none

/-- The names of `m` are found in the table, with their sectors. -/
def Finds (m : List UInt8 → Option ℕ) (l : List DirEntry) : Prop := ∀ name c, m name = some c → 0 ∉ name ∧
  ∃ k e, search (named name) l 1 = some k ∧ l[k]? = some e ∧ e.inodeSector = c

/-- A search is not affected by a slot that passes the test neither before nor after. -/
theorem search_put {l : List DirEntry} {q : DirEntry → Bool} {j k n : ℕ} {e : DirEntry} (hj : j ≤ l.length)
    (hold : ∀ a, l[j]? = some a → q a = false) (hnew : q e = false) (h : search q l k = some n) :
    search q (put l j e) k = some n ∧ (put l j e)[n]? = l[n]? := by
  obtain ⟨hk, ⟨a, ha, hqa⟩, hfirst⟩ := search_eq_some.mp h
  have hnj : n ≠ j := by
    intro heq
    rw [heq] at ha
    rw [hold a ha] at hqa
    exact absurd hqa (by simp)
  have hn : (put l j e)[n]? = l[n]? := put_of_ne hj hnj
  refine ⟨search_eq_some.mpr ⟨hk, ⟨a, hn.trans ha, hqa⟩, fun i hi hin b hb => ?_⟩, hn⟩
  by_cases hij : i = j
  · rw [hij, put_self hj] at hb
    obtain rfl := Option.some.inj hb
    exact hnew
  · rw [put_of_ne hj hij] at hb
    exact hfirst i hi hin b hb

/-- **Added names are found**, while record 0 is in use. -/
theorem Finds.step {m : List UInt8 → Option ℕ} {l l' : List DirEntry} {ev : DirEvent} (h : Finds m l)
    (ht : TableStep l ev l') (h0 : ∃ e, l[0]? = some e ∧ e.inUse = true) : Finds (ev.apply m) l' := by
  cases ht with
  | failed hadd hrem =>
    have heq : ev.apply m = m := by
      cases ev with
      | add nm c r => cases r with
        | true => exact absurd rfl (hadd nm c)
        | false => rfl
      | remove nm r => cases r with
        | true => exact absurd rfl (hrem nm)
        | false => rfl
      | other => rfl
    rw [heq]
    exact h
  | @added nm c e hnul fresh hrec =>
    have hfree : firstFree DirEntry.inUse l ≤ l.length := firstFree_le
    have hold : ∀ name a, l[firstFree DirEntry.inUse l]? = some a → named name a = false := by
      intro name a ha
      cases hu : a.inUse with
      | true => exact absurd rfl (firstFree_ne ha hu)
      | false => rw [named, hu, Bool.false_and]
    intro name c' hm
    by_cases hname : name = nm
    · -- the new record is behind record 0, and the only one with this name
      subst hname
      have hc : c = c' := by
        simp only [DirEvent.apply, if_true] at hm
        exact Option.some.inj hm
      obtain ⟨e₀, he₀, hu₀⟩ := h0
      have hpos : firstFree DirEntry.inUse l ≠ 0 := firstFree_ne he₀ hu₀
      refine ⟨hnul, firstFree DirEntry.inUse l, e, search_eq_some.mpr ⟨by omega, ⟨e, put_self hfree, hrec.named⟩,
        fun i hi hij b hb => ?_⟩, put_self hfree, hrec.sector.trans hc⟩
      rw [put_of_ne hfree (by omega)] at hb
      exact search_eq_none.mp fresh i hi b hb
    · have hm' : m name = some c' := by
        simpa only [DirEvent.apply, if_neg hname] using hm
      obtain ⟨hn0, k, a, hs, ha, hsec⟩ := h name c' hm'
      have hnew : named name e = false := by
        by_contra hne
        have := name_of_named (by simpa using hne) hn0
        exact hname (this.symm.trans hrec.name)
      obtain ⟨hs', hk'⟩ := search_put hfree (hold name) hnew hs
      exact ⟨hn0, k, a, hs', hk'.trans ha, hsec⟩
  | @removed nm j e hnul found he =>
    obtain ⟨_, hj⟩ := search_lt found
    intro name c' hm
    by_cases hname : name = nm
    · simp [DirEvent.apply, hname] at hm
    · have hm' : m name = some c' := by
        simpa only [DirEvent.apply, if_neg hname] using hm
      obtain ⟨hn0, k, a, hs, ha, hsec⟩ := h name c' hm'
      have hold : ∀ b, l[j]? = some b → named name b = false := by
        intro b hb
        rw [he] at hb
        obtain rfl := Option.some.inj hb
        by_contra hne
        obtain ⟨_, ⟨b, hb, hnb⟩, _⟩ := search_eq_some.mp found
        rw [he] at hb
        obtain rfl := Option.some.inj hb
        exact hname ((name_of_named (by simpa using hne) hn0).symm.trans (name_of_named hnb hnul))
      obtain ⟨hs', hk'⟩ := search_put hj.le hold (named_cleared e) hs
      exact ⟨hn0, k, a, hs', hk'.trans ha, hsec⟩

/-! ### How a directory is made -/

/-- `P` with the stack holding the bytes `g` wherever an object is not initialised. -/
def Policy.onStack (P : Policy) (g : ℕ → UInt8) : Policy := { P with junk := fun e => e = g }

/-- The file system after a directory has been made in sector `s`, with the bytes `g` on the stack: by
`dir_create`, the directory being its own parent, or by the calls that `filesys_create` makes once it
has found the parent directory. -/
inductive Makes (P : Policy) (g : ℕ → UInt8) : ℕ → ℕ → DirState → Prop
  | root {w w' : World} {live : Set ℕ} {s n : ℕ} (ok : InodeOk w live) (alloc : Allocated w s)
      (free : ¬Owned w live s) (small : n * 20 ≤ 8517120)
      (runs : Runs (P.onStack g) (dirCreate s n) w (.ok true) w') : Makes P g s s ⟨w', insert s live⟩
  | child {w w₁ w₂ w₃ w' : World} {live : Set ℕ} {p s parent : ℕ} {pos : ℤ} {name : List UInt8}
      (opened : DirOpen live w p parent)
      (allocates : Runs (P.onStack g) (freeMapAllocate 1) w (.ok (some s)) w₁)
      (creates : Runs (P.onStack g) (inodeCreate s 0 true) w₁ (.ok true) w₂)
      (adds : Runs (P.onStack g) (dirAdd ⟨p, pos⟩ name s true) w₂ (.ok true) w₃)
      (closes : Runs (P.onStack g) (dirClose (some ⟨p, pos⟩)) w₃ (.ok ()) w') :
      Makes P g s parent ⟨w', surviving (insert s live) w'⟩

/-- A sequence that returns consists of two parts that return. -/
theorem Runs.split {α β : Type} {q : Fs α} {f : α → Fs β} {b : β} (h : Runs P (q >>= f) w (.ok b) w') :
    ∃ a v, Runs P q w (.ok a) v ∧ Runs P (f a) v (.ok b) w' := by
  rcases Prog.Ends.of_bind h with hok | ⟨e, he, _⟩
  · exact hok
  · exact absurd he (by simp)

theorem Runs.of_pure {α : Type} {a b : α} (h : Runs P (pure a) w (.ok b) w') : a = b ∧ w' = w := by
  obtain ⟨hb, hw⟩ := h
  exact ⟨(Except.ok.inj hb).symm, hw⟩

/-- The calls of `Makes.child` are those of a `filesys_create` that succeeds. -/
theorem runs_filesysCreate {path : List UInt8} {size : ℤ} {isDir : Bool}
    (h : Runs P (filesysCreate path size isDir) w (.ok true) w') :
    ∃ stale d s w₀ w₁ w₂ w₃, Runs P (makePath (divideFn path stale).1) w (.ok (some d)) w₀ ∧
      Runs P (freeMapAllocate 1) w₀ (.ok (some s)) w₁ ∧ Runs P (inodeCreate s size isDir) w₁ (.ok true) w₂ ∧
      Runs P (dirAdd d (divideFn path stale).2 s isDir) w₂ (.ok true) w₃ ∧
      Runs P (dirClose (some d)) w₃ (.ok ()) w' := by
  rw [filesysCreate] at h
  obtain ⟨stale, v, ⟨_, _, ⟨_, rfl⟩, hv⟩, h₁⟩ := h.split
  obtain ⟨_, rfl⟩ := Runs.of_pure hv
  refine ⟨stale 0, ?_⟩
  revert h₁
  generalize divideFn path (stale 0) = tokens
  intro h₁
  obtain ⟨dToken, fToken⟩ := tokens
  obtain ⟨dir, w₀, hpath, h₂⟩ := Runs.split h₁
  cases dir with
  | none => exact absurd (Runs.of_pure h₂).1 (by simp)
  | some d =>
    obtain ⟨sector, w₁, halloc, h₃⟩ := Runs.split h₂
    cases sector with
    | none =>
      obtain ⟨_, _, _, h₄⟩ := Runs.split h₃
      exact absurd (Runs.of_pure h₄).1 (by simp)
    | some s =>
      obtain ⟨created, w₂, hcreate, h₄⟩ := Runs.split h₃
      -- whatever `dir_add` has returned is returned in the end
      have hend : ∀ (success : Bool) w₃, Runs P (do
          if (!success) = true ∧ s ≠ 0 then freeMapRelease s 1
          dirClose (some d)
          return success) w₃ (.ok true) w' →
          success = true ∧ Runs P (dirClose (some d)) w₃ (.ok ()) w' := by
        intro success w₃ h₅
        cases success with
        | true =>
          obtain ⟨_, w₄, hclose, h₆⟩ := Runs.split (f := fun _ => pure true) h₅
          obtain ⟨_, rfl⟩ := Runs.of_pure h₆
          exact ⟨rfl, hclose⟩
        | false =>
          have hlast : ∀ v, ¬Runs P (do dirClose (some d); return false) v (.ok true) w' := by
            intro v h₆
            obtain ⟨_, _, _, h₇⟩ := Runs.split h₆
            exact absurd (Runs.of_pure h₇).1 (by simp)
          by_cases hz : s ≠ 0
          · rw [if_pos ⟨rfl, hz⟩] at h₅
            obtain ⟨_, v, _, h₆⟩ := Runs.split h₅
            exact absurd h₆ (hlast v)
          · rw [if_neg fun hs => hz hs.2] at h₅
            exact absurd h₅ (hlast w₃)
      cases created with
      | false =>
        obtain ⟨success, w₃, hadd, h₅⟩ := Runs.split h₄
        obtain ⟨rfl, rfl⟩ := Runs.of_pure hadd
        exact absurd (hend _ _ h₅).1 (by simp)
      | true =>
        obtain ⟨success, w₃, hadd, h₅⟩ := Runs.split h₄
        obtain ⟨rfl, hclose⟩ := hend success w₃ h₅
        exact ⟨d, s, w₀, w₁, w₂, w₃, hpath, halloc, hcreate, hadd, hclose⟩

theorem Policy.onStack_noFail {g : ℕ → UInt8} (hP : P.NoFail) : (P.onStack g).NoFail := hP

theorem entries_nil (h : (page w s).length = 0) : entries w s = [] := by
  rw [entries, h]
  rfl

/-- `dir_create` leaves record 0 with the directory's own sector and the rest of the stack. -/
theorem wp_dirCreate (hP : P.NoFail) (h : InodeOk w live) (hs : Allocated w s) (hno : ¬Owned w live s) {n : ℕ}
    (hn : n * 20 ≤ 8517120) {Q : Bool → World → Prop} (hfalse : ∀ w', Q false w')
    (hQ : ∀ w' g, P.junk g → DirOk (insert s live) w' s →
      (entries w' s)[0]? = some (entryAt (DirEntry.setInodeSector g s) 0) → Q true w') :
    wp P (dirCreate s n) Q (fun _ _ => True) w := by
  have hs0 : s ≠ 0 := by
    intro heq
    subst heq
    exact hno (.inl h.zero)
  have hmem : s ∈ insert s live := Set.mem_insert s live
  rw [dirCreate, show toInt32 (n * 20) = (n * 20 : ℕ) from if_pos (by omega), wp_bind]
  refine wp_inodeCreate hP h hs hno (by omega) (by omega) (fun _ _ _ => trivial) (fun w₁ hc => ?_)
    fun _ w₁ _ _ => by simpa using hfalse w₁
  have hclosed : w₁.mem.openInode s = none := by
    apply hc.ok.mem.openInode_eq_none.mpr
    intro q j hj heq
    rw [hc.heap] at hj
    exact hno (.inl (heq ▸ h.openLive q j hj))
  have hlen₁ : (page w₁ s).length = (n * 20 : ℕ) := by
    rw [page_of_closed hclosed]
    exact hc.page.length
  simp only [Bool.not_true, Bool.false_eq_true, if_false, wp_bind]
  refine wp_inodeOpen hP hc.ok hmem fun p w₂ ho => ?_
  simp only [dirOpen, wp_bind, wp_malloc]
  intro b hb
  rw [hP b hb]
  simp only [wp_pure, wp_junk, wp_bind]
  intro g hg
  have hk₂ : Kept s w₁ w₂ := ho.same.kept hmem hs0
  have hdir₂ : DirOpen (insert s live) w₂ p s := by
    refine ⟨ho.ok, ho.holds_self, hs0, ?_⟩
    rw [hk₂.length, hlen₁]
    omega
  change wp P (inodeWriteAt p (DirEntry.setInodeSector g s) 20 (20 * 0 : ℕ)) _ _ _
  refine wp_writeRecord hP hdir₂ (Nat.zero_le _) _ (fun w₃ hb _ hput => ?_) (fun w₃ hb _ _ _ => ?_)
    fun _ _ _ _ => trivial
  · refine wp_giveBack hP hb.dir.ok ((ho.lent hc.ok).after hb.handles) hs0 fun w₄ hok₄ _ hk₄ _ => ?_
    have hk : Kept s w₃ w₄ := hk₄ s hmem hs0 hb.dir.length
    refine hQ w₄ g hg (hb.dir.dirOk.kept hok₄ hmem hk) ?_
    rw [hk.entries, hput, put_self (Nat.zero_le _)]
  · refine wp_giveBack hP hb.dir.ok ((ho.lent hc.ok).after hb.handles) hs0 fun w₄ _ _ _ _ => ?_
    simpa using hfalse w₄

/-- **However a directory is made**, it is in order, and its record 0 holds the parent's sector and the
rest of the stack. -/
theorem Makes.record {g : ℕ → UInt8} {σ : DirState} (hP : P.NoFail) (h : Makes P g s parent σ) :
    DirOk σ.live σ.world s ∧ parent < 2 ^ 32 ∧
      (entries σ.world s)[0]? = some (entryAt (DirEntry.setInodeSector g parent) 0) := by
  cases h with
  | @root w w' live _ n ok alloc free small runs =>
    have hlt : s < 2 ^ 32 := alloc.1.trans ok.fm.fsSize
    have hwp : wp (P.onStack g) (dirCreate s n) (fun r w' => r = true → DirOk (insert s live) w' s ∧
        (entries w' s)[0]? = some (entryAt (DirEntry.setInodeSector g s) 0)) (fun _ _ => True) w :=
      wp_dirCreate (Policy.onStack_noFail hP) ok alloc free small (fun _ => by simp) fun w' g' hg hok he _ => by
        obtain rfl : g' = g := hg
        exact ⟨hok, he⟩
    obtain ⟨hok, he⟩ := wp_iff_runs.mp hwp _ _ runs rfl
    exact ⟨hok, hlt, he⟩
  | @child w w₁ w₂ w₃ w' live p _ _ pos name opened allocates creates adds closes =>
    have hP' := Policy.onStack_noFail (g := g) hP
    -- the sector is fresh
    have hhand : Handed live w s w₁ := wp_iff_runs.mp
      (wp_freeMapAllocate hP' opened.ok (E := fun _ _ => True)
        (Q := fun r w' => ∀ t, r = some t → Handed live w t w') (fun _ _ _ h => absurd h (by simp))
        fun t w' h u hu => by
          obtain rfl := Option.some.inj hu
          exact h) _ _ allocates s rfl
    have hsame₁ := hhand.step.same opened.ok
    have hno : ¬Owned w₁ live s := fun ho =>
      hhand.free (opened.ok.owned_allocated ((hsame₁.owned s).mp ho))
    obtain ⟨i, hi, hsec, _, hparent⟩ := opened.inode
    have hne : parent ≠ s := fun heq => hno (.inl (heq ▸ hparent))
    have hs0 : s ≠ 0 := by
      intro heq
      subst heq
      exact hno (.inl hhand.ok.zero)
    -- its inode is empty
    have hcreated : Created live w₁ s 0 true w₂ := wp_iff_runs.mp
      (wp_inodeCreate hP' hhand.ok ((hhand.alloc s).mpr (.inr rfl)) hno (le_refl 0) (by decide)
        (E := fun _ _ => True) (Q := fun r w' => r = true → Created live w₁ s 0 true w')
        (fun _ _ _ => trivial) (fun _ hc _ => hc) fun _ _ _ _ hf => absurd hf (by simp)) _ _ creates rfl
    have hi₂ : w₂.mem.heap p = some i := by
      rw [hcreated.heap, hhand.step.heap, hi]
    have hmem : s ∈ insert s live := Set.mem_insert s live
    have hkparent : Kept parent w w₂ := (hsame₁.kept hparent opened.ne_zero).trans
      (hcreated.same.kept hparent opened.ne_zero)
    have hdir₂ : DirOpen (insert s live) w₂ p parent :=
      ⟨hcreated.ok, ⟨i, hi₂, hsec⟩, opened.ne_zero, by rw [hkparent.length]; exact opened.length⟩
    have hclosed : w₂.mem.openInode s = none := by
      apply hcreated.ok.mem.openInode_eq_none.mpr
      intro q j hj heq
      rw [hcreated.heap] at hj
      exact hno (.inl (heq ▸ hhand.ok.openLive q j hj))
    have hlen₂ : (page w₂ s).length = 0 := by
      rw [page_of_closed hclosed]
      exact hcreated.page.length
    have hcan : CanAdd (insert s live) w₂ parent s := ⟨hmem, hs0, hne.symm, by omega⟩
    -- `dir_add` writes the record
    obtain ⟨haround, hadded⟩ := wp_iff_runs.mp (wp_dirAdd hP' hdir₂ (fun _ => hcan) (E := fun _ _ => True)
      (Q := fun r w' => r = true → Around (insert s live) p parent (apartFrom (insert s live) w₂ parent s true) w₂ w' ∧
        AddedTo (P.onStack g) w₂ parent name s true w') (fun _ ha _ hadd _ => ⟨ha, hadd⟩)
      (fun _ _ _ _ _ hf => absurd hf (by simp)) fun _ _ _ _ => trivial) _ _ adds rfl
    obtain ⟨g', hg', he⟩ := hadded.parent rfl
    obtain rfl : g' = g := hg'
    obtain ⟨i₃, hi₃, hsec₃, _⟩ := haround.dir.inode
    have hdir₃ : DirOk (insert s live) w₃ s := ⟨haround.dir.ok, hmem, hs0, hadded.child rfl⟩
    -- giving back the parent changes nothing
    obtain ⟨hthere, hkept⟩ := wp_iff_runs.mp (wp_close_other hP' hdir₃ hi₃ (by rwa [hsec₃])
      (by rw [hsec₃]; exact opened.ne_zero) (E := fun _ _ => True)
      (Q := fun _ w' => StillThere (insert s live) s w₃ w' ∧ Kept s w₃ w') fun _ h _ hk => ⟨h, hk⟩) _ _ closes
    refine ⟨hthere.dir, ?_, ?_⟩
    · exact (opened.ok.alloc parent hparent).1.trans opened.ok.fm.fsSize
    · rw [hkept.entries, he, put_self (Nat.zero_le _)]

/-! ### Safety -/

/-- The parent record of the directory in sector `s` is as it was made, and live; `..` leads to the parent
directory; and what has been added is found by `lookup`, behind record 0. -/
structure ParentSafe (P : Policy) (s parent : ℕ) (σ₀ : DirState) (evs : List DirEvent) (σ : DirState) : Prop where
  record : ∃ e, (entries σ.world s)[0]? = some e ∧ (entries σ₀.world s)[0]? = some e ∧ e.inUse = true ∧
    e.inodeSector = parent
  dotDot : ∀ p pos r w', Holds σ.world p s → Runs P (dirLookup (some ⟨p, pos⟩) dotDot) σ.world (.ok r) w' →
    ∃ q, r = some q ∧ Holds w' q parent
  found : ∀ name c, added evs name = some c → ∀ p pos r w', Holds σ.world p s →
    Runs P (lookup ⟨p, pos⟩ name) σ.world (.ok r) w' → ∃ e ofs, r = some (e, ofs) ∧ 20 ≤ ofs ∧ e.inodeSector = c

/-- A live record 0 stays, and what is added is found. -/
theorem Finds.run (hP : P.NoFail) {σ₀ σ : DirState} {evs : List DirEvent} {e : DirEntry}
    (h : Trace (DirStep P s) σ₀ evs σ) (hok : DirOk σ₀.live σ₀.world s) (he : (entries σ₀.world s)[0]? = some e)
    (hu : e.inUse = true) (m : List UInt8 → Option ℕ) (hm : Finds m (entries σ₀.world s)) :
    DirOk σ.live σ.world s ∧ (entries σ.world s)[0]? = some e ∧
      Finds (evs.foldl DirEvent.apply m) (entries σ.world s) := by
  induction h generalizing m with
  | nil σ => exact ⟨hok, he, hm⟩
  | cons head _ ih =>
    obtain ⟨hok', ht, _⟩ := head.table hP hok
    exact ih hok' (ht.stays he hu (.inl rfl)) _ (hm.step ht ⟨e, he, hu⟩)

/-- **The parent record is never reused** if and only if the byte of the stack that `in_use` is left with
is not zero. -/
theorem parent_record_iff (hP : P.NoFail) {g : ℕ → UInt8} {σ₀ : DirState} (h₀ : Makes P g s parent σ₀) :
    (∀ evs σ, Trace (DirStep P s) σ₀ evs σ → ParentSafe P s parent σ₀ evs σ) ↔ g 19 ≠ 0 := by
  obtain ⟨hok, hlt, he⟩ := h₀.record hP
  have huse : DirEntry.inUse (entryAt (DirEntry.setInodeSector g parent) 0) = (g 19 != 0) := by
    rw [DirEntry.inUse_entryAt, DirEntry.inUse, DirEntry.setInodeSector, Bytes.splice_outside (by omega)]
  have hsec : DirEntry.inodeSector (entryAt (DirEntry.setInodeSector g parent) 0) = parent := by
    rw [DirEntry.inodeSector_entryAt, DirEntry.inodeSector_setInodeSector hlt]
  constructor
  · intro hall
    obtain ⟨e, _, he', hu, _⟩ := (hall [] σ₀ (.nil σ₀)).record
    rw [he] at he'
    obtain rfl := Option.some.inj he'
    rw [huse] at hu
    simpa using hu
  · intro hg evs σ h
    have hu : DirEntry.inUse (entryAt (DirEntry.setInodeSector g parent) 0) = true := by
      rw [huse]
      simpa using hg
    obtain ⟨hok', hrec, hfinds⟩ := Finds.run hP h hok he hu (fun _ => none) fun _ _ hf => absurd hf (by simp)
    refine ⟨⟨_, hrec, he, hu, hsec⟩, fun p pos r w' hp hrun => ?_, fun name c hc p pos r w' hp hrun => ?_⟩
    · obtain ⟨q, hq, hhold⟩ := wp_iff_runs.mp (wp_dirLookup_dotDot hP (hok'.opened hp) hrec) _ _ hrun
      rw [hsec] at hhold
      exact ⟨q, hq, hhold⟩
    · obtain ⟨_, k, e, hs, hk, hkc⟩ := hfinds name c hc
      obtain ⟨hk1, _⟩ := search_lt hs
      refine wp_iff_runs.mp (wp_lookup hP (hok'.opened hp) (E := fun _ _ => True)
        (Q := fun r _ => ∃ e ofs, r = some (e, ofs) ∧ 20 ≤ ofs ∧ e.inodeSector = c)
        (fun j e' hj he' => ?_) fun hnone => ?_) _ _ hrun
      · rw [hs] at hj
        obtain rfl := Option.some.inj hj
        rw [hk] at he'
        obtain rfl := Option.some.inj he'
        exact ⟨e, 20 * k, rfl, by omega, hkc⟩
      · rw [hs] at hnone
        exact absurd hnone (by simp)

/-! ### A directory in the root directory -/

/-- The root directory of a formatted device has been opened. -/
def rootOpen (e : Env) : World := (runArray (do filesysInit true; dirOpenRoot) e (newMachine 16)).2.2

/-- The state after `p`, with the memory and the stack that `e` gives. -/
def endOf {α : Type} (e : Env) (w : World) (p : Fs α) : World := (runArray p e w).2.2

/-- The calls that make a directory `d` in the root directory, one after the other. -/
def dirAllocated (e : Env) : World := endOf e (rootOpen e) (freeMapAllocate 1)

def dirCreated (e : Env) : World := endOf e (dirAllocated e) (inodeCreate 4 0 true)

def dirAdded (e : Env) : World := endOf e (dirCreated e) (dirAdd ⟨3, 20⟩ [100] 4 true)

def dirMade (e : Env) : World := endOf e (dirAdded e) (dirClose (some ⟨3, 20⟩))

def made (e : Env) : DirState := ⟨dirMade e, surviving (insert 4 {1, 0}) (dirMade e)⟩

/-- What these calls return. -/
def Answers (e : Env) : Prop :=
  (runArray (do filesysInit true; dirOpenRoot) e (newMachine 16)).1 = .ok (some ⟨3, 20⟩) ∧
    (runArray (freeMapAllocate 1) e (rootOpen e)).1 = .ok (some 4) ∧
    (runArray (inodeCreate 4 0 true) e (dirAllocated e)).1 = .ok true ∧
    (runArray (dirAdd ⟨3, 20⟩ [100] 4 true) e (dirCreated e)).1 = .ok true ∧
    (runArray (dirClose (some ⟨3, 20⟩)) e (dirAdded e)).1 = .ok ()

instance decidableAnswers (e : Env) : Decidable (Answers e) := inferInstanceAs (Decidable (_ ∧ _))

theorem made_makes {e : Env} {g : ℕ → UInt8} (hm : ∀ n, e.malloc n = true) (hj : ∀ n, e.junk n = g) (h : Answers e) :
    Makes .memory g 4 1 (made e) := by
  obtain ⟨h₀, h₁, h₂, h₃, h₄⟩ := h
  have hadmit : (Policy.memory.onStack g).Admits e := ⟨hm, hj⟩
  have hruns : ∀ {α : Type} (p : Fs α) (w : World) {r : Except Stop α}, (runArray p e w).1 = r →
      Runs (Policy.memory.onStack g) p w r (endOf e w p) := by
    intro α p w r hr
    rw [← hr]
    exact runs_runArray p hadmit fun _ => trivial
  have hP : (Policy.memory.onStack g).NoFail := Policy.memory_noFail
  have hwp : wp (Policy.memory.onStack g) (do filesysInit true; dirOpenRoot)
      (fun r w' => ∃ q, r = some ⟨q, 20⟩ ∧ DirOpen {1, 0} w' q 1) (fun _ _ => True) (newMachine 16) := by
    rw [wp_bind]
    refine wp_mono_ret (wp_filesysInit_format hP (newMachine_blank (by decide) (by decide))) fun _ w₁ hf => ?_
    exact wp_dirOpenRoot hP hf fun q w' hd => ⟨q, rfl, hd⟩
  obtain ⟨q, hq, hdir⟩ := wp_iff_runs.mp hwp _ _ (hruns _ _ h₀)
  obtain rfl : 3 = q := congrArg Dir.inode (Option.some.inj hq)
  exact .child hdir (hruns _ _ h₁) (hruns _ _ h₂) (hruns _ _ h₃) (hruns _ _ h₄)

/-- With ones on the stack the directory is safe. -/
theorem parent_record_iff_ones : (∀ evs σ, Trace (DirStep .memory 4) (made onesEnv) evs σ →
    ParentSafe .memory 4 1 (made onesEnv) evs σ) ↔ (1 : UInt8) ≠ 0 :=
  parent_record_iff Policy.memory_noFail (g := fun _ => 1)
    (made_makes (fun _ => rfl) (fun _ => rfl) (by decide +kernel))

theorem made_plain : Makes .memory (fun _ => 0) 4 1 (made plainEnv) :=
  made_makes (fun _ => rfl) (fun _ => rfl) (by decide +kernel)

/-- The new directory has been opened, and a name added to it. -/
def dirOpened : World := endOf plainEnv (dirMade plainEnv) (inodeOpen 4)

def nameAdded : World := endOf plainEnv dirOpened (dirAdd ⟨5, 20⟩ [97] 5 false)

/-- What is returned and left on the device: the name stands in record 0, and `lookup` does not find it. -/
theorem answers_nameAdded : (runArray (inodeOpen 4) plainEnv (dirMade plainEnv)).1 = .ok (some 5) ∧
    (runArray (dirAdd ⟨5, 20⟩ [97] 5 false) plainEnv dirOpened).1 = .ok true ∧
    (nameAdded.mem.heap 5).map Inode.sector = some 4 ∧
    (runArray (lookup ⟨5, 20⟩ [97]) plainEnv nameAdded).1.map Option.isSome = .ok false ∧
    ((entries nameAdded 4)[0]?).map (fun e => (e.name, e.inodeSector)) = some ([97], 5) := by
  decide +kernel

theorem runs_dirOpened : Runs .memory (inodeOpen 4) (dirMade plainEnv) (.ok (some 5)) dirOpened :=
  runs_plain _ _ answers_nameAdded.1

theorem runs_nameAdded : Runs .memory (dirAdd ⟨5, 20⟩ [97] 5 false) dirOpened (.ok true) nameAdded :=
  runs_plain _ _ answers_nameAdded.2.1

theorem holds_nameAdded : Holds nameAdded 5 4 := Option.map_eq_some_iff.mp answers_nameAdded.2.2.1

theorem lookup_nameAdded : ∃ w', Runs .memory (lookup ⟨5, 20⟩ [97]) nameAdded (.ok none) w' := by
  have h := answers_nameAdded.2.2.2.1
  cases hr : (runArray (lookup ⟨5, 20⟩ [97]) plainEnv nameAdded).1 with
  | error e =>
    rw [hr] at h
    exact absurd h (by simp [Except.map])
  | ok r =>
    cases r with
    | none => exact ⟨_, runs_plain _ _ hr⟩
    | some x =>
      rw [hr] at h
      exact absurd h (by simp [Except.map])

theorem dirOpened_trace : ∃ σ₀ live, Makes .memory (fun _ => 0) 4 1 σ₀ ∧
    Trace (DirStep .memory 4) σ₀ [.other, .add [97] 5 true] ⟨nameAdded, live⟩ := by
  obtain ⟨hok, _, _⟩ := made_plain.record Policy.memory_noFail
  obtain ⟨q, hq, hopen⟩ := wp_iff_runs.mp (wp_inodeOpen Policy.memory_noFail hok.ok hok.mem
    (E := fun _ _ => True) (Q := fun r w' => ∃ q, r = some q ∧ Opened (made plainEnv).live (made plainEnv).world 4 q w')
    fun q w' ho => ⟨q, rfl, ho⟩) _ _ runs_dirOpened
  obtain rfl := Option.some.inj hq
  have hkept : Kept 4 (made plainEnv).world dirOpened := hopen.same.kept hok.mem hok.ne_zero
  exact ⟨_, _, made_plain, .cons (.other hopen.ok hok.mem hkept)
    (.single (.add hopen.holds_self (by decide) (by decide) (by simp) runs_nameAdded))⟩

/-- With zeros on the stack the first name added goes into record 0, where `lookup` does not find it. -/
theorem parent_record_reused : ∃ σ₀ σ, Makes .memory (fun _ => 0) 4 1 σ₀ ∧
    Trace (DirStep .memory 4) σ₀ [.other, .add [97] 5 true] σ ∧
    ((entries σ.world 4)[0]?).map (fun e => (e.name, e.inodeSector)) = some ([97], 5) ∧
    ¬ParentSafe .memory 4 1 σ₀ [.other, .add [97] 5 true] σ := by
  obtain ⟨σ₀, live, hmakes, htrace⟩ := dirOpened_trace
  refine ⟨σ₀, ⟨nameAdded, live⟩, hmakes, htrace, answers_nameAdded.2.2.2.2, fun hsafe => ?_⟩
  obtain ⟨w', hrun⟩ := lookup_nameAdded
  obtain ⟨e, ofs, hr, _⟩ := hsafe.found [97] 5 rfl 5 20 none w' holds_nameAdded hrun
  exact absurd hr (by simp)

end Pintos.Filesys
