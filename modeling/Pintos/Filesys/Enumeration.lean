import Pintos.Filesys.DirectoryRuns

/-!
# Enumerating a directory that changes

`dir_readdir` goes on from the position it keeps, with `dir_add` and `dir_remove` called on the same
directory in between.  Such a run is one of a `SlotTable.Cursor`, so that an entry that stays is returned
once.  A scan takes a short read for the end of the directory; when the bounce buffer of `inode_read_at`
cannot be allocated, the first call already ends the enumeration.
-/

namespace Pintos.Filesys

open SlotTable

variable {P : Policy} {E : Stop → World → Prop} {w w' : World} {live : Set ℕ} {p s : ℕ}

/-- What `dir_readdir` returns of a record. -/
def DirEntry.view (e : DirEntry) : Option (List UInt8) := if e.inUse then some e.name else none

theorem DirEntry.isSome_view (e : DirEntry) : e.view.isSome = e.inUse := by
  unfold view
  cases e.inUse <;> rfl

/-- **`dir_readdir`** is a search for the next record in use. -/
theorem wp_readdirLoop (hP : P.NoFail) (h : DirOpen live w p s) {Q : Option (List UInt8) × Dir → World → Prop}
    (fuel k : ℕ) (hk : k ≤ 425857) (hpos : 0 < fuel)
    (hfuel : (entries w s).length < k + fuel)
    (hfound : ∀ j e, search DirEntry.inUse (entries w s) k = some j → (entries w s)[j]? = some e →
      Q (some e.name, ⟨p, (20 * (j + 1) : ℕ)⟩) w)
    (hnone : search DirEntry.inUse (entries w s) k = none →
      Q (none, ⟨p, (20 * max k (entries w s).length : ℕ)⟩) w) :
    wp P (readdirLoop fuel ⟨p, (20 * k : ℕ)⟩) Q E w := by
  have hle := h.length_le
  induction fuel generalizing k with
  | zero => omega
  | succ fuel ih =>
    rw [readdirLoop, wp_bind]
    refine wp_readRecord hP h (by omega) (fun l hl h20 => ?_) fun l hl h20 => ?_
    · obtain ⟨hklt, _⟩ := List.getElem?_eq_some_iff.mp hl
      have hnext : wrap32 (((20 * k : ℕ) : ℤ) + 20) = (20 * (k + 1) : ℕ) := by
        rw [wrap32_of_mem (by omega) (by omega)]
        omega
      simp only [if_pos h20, hnext]
      rw [search_cons hl] at hfound hnone
      by_cases hu : DirEntry.inUse (Bytes.overlay l fun _ => 0) = true
      · rw [if_pos hu] at hfound ⊢
        exact (wp_pure _).mpr (hfound k _ rfl hl)
      · rw [if_neg hu] at hfound hnone ⊢
        apply ih (k + 1) (by omega) (by omega) (by omega) hfound
        intro hs
        have := hnone hs
        rwa [max_eq_right hklt.le, ← max_eq_right (show k + 1 ≤ (entries w s).length from hklt)] at this
    · have hge := List.getElem?_eq_none_iff.mp hl
      simp only [if_neg h20]
      have := hnone (search_of_ge hge)
      rw [max_eq_left hge] at this
      exact (wp_pure _).mpr this

/-! ### Runs -/

/-- A directory that is being read: the open `struct dir`, and what has been returned so far, each name
with the number of its record. -/
structure Reading where
  state : DirState
  dir : Dir
  returned : List (ℕ × List UInt8)

inductive ReadEvent
  | readdir (r : Option (List UInt8))
  | call (ev : DirEvent)

/-- The record in front of the position. -/
def recordBefore (d : Dir) : ℕ := d.pos.toNat / 20 - 1

/-- One event: `dir_readdir` returns, or something else happens, and the `struct dir` stays open. -/
inductive ReadStep (P : Policy) (s : ℕ) (σ : Reading) : ReadEvent → Reading → Prop
  | readdir {r : Option (List UInt8)} {d : Dir} {w' : World}
      (runs : Runs P (dirReaddir σ.dir) σ.state.world (.ok (r, d)) w') :
      ReadStep P s σ (.readdir r) ⟨⟨w', σ.state.live⟩, d,
        σ.returned ++ r.toList.map fun name => (recordBefore d, name)⟩
  | call {ev : DirEvent} {τ : DirState} (step : DirStep P s σ.state ev τ)
      (stays : ev = DirEvent.other → Holds τ.world σ.dir.inode s) :
      ReadStep P s σ (.call ev) ⟨τ, σ.dir, σ.returned⟩

namespace Reading

/-- The directory is open, and the position is at the start of a record behind the first. -/
structure Ok (s : ℕ) (σ : Reading) : Prop where
  dir : DirOpen σ.state.live σ.state.world σ.dir.inode s
  pos : ∃ k, 1 ≤ k ∧ k ≤ 425857 ∧ σ.dir.pos = (20 * k : ℕ)

/-- The enumeration of the table of entries. -/
def cursor (s : ℕ) (σ : Reading) : Cursor DirEntry (List UInt8) :=
  ⟨entries σ.state.world s, σ.dir.pos.toNat / 20, σ.returned⟩

/-- The record `k` holds a name. -/
def Listed (s : ℕ) (σ : Reading) (k : ℕ) (name : List UInt8) : Prop :=
  ∃ e, (entries σ.state.world s)[k]? = some e ∧ e.inUse = true ∧ e.name = name

end Reading

def ReadEvent.event : ReadEvent → Event (List UInt8)
  | .readdir r => .next r
  | .call _ => .change

variable {σ σ' σ₀ : Reading} {ev : ReadEvent}

theorem search_view (l : List DirEntry) (k : ℕ) :
    search (fun e : DirEntry => e.view.isSome) l k = search DirEntry.inUse l k := by
  rw [funext DirEntry.isSome_view]

theorem Reading.cursor_of_pos {k : ℕ} (h : σ.dir.pos = (20 * k : ℕ)) :
    σ.cursor s = ⟨entries σ.state.world s, k, σ.returned⟩ := by
  rw [cursor, h]
  congr 1
  omega

/-- **A run of the code is a run of the cursor.** -/
theorem ReadStep.simulates (hP : P.NoFail) (h : ReadStep P s σ ev σ') (hok : σ.Ok s) :
    σ'.Ok s ∧ Cursor.Step DirEntry.view (σ.cursor s) ev.event (σ'.cursor s) ∧
      ((∃ r, ev = .readdir r ∧ σ'.state = σ.state) ∨
        ∃ d, ev = .call d ∧ TableStep (entries σ.state.world s) d (entries σ'.state.world s)) := by
  cases h with
  | @call ev τ step stays =>
    obtain ⟨hdir, htable, hkeeps⟩ := step.table hP hok.dir.dirOk
    refine ⟨⟨hdir.opened ?_, hok.pos⟩, .change _, .inr ⟨ev, rfl, htable⟩⟩
    by_cases hev : ev = DirEvent.other
    · exact stays hev
    · exact hkeeps hev _ hok.dir.holds
  | @readdir r d w' runs =>
    obtain ⟨k, hk1, hk, hpos⟩ := hok.pos
    have hdir : σ.dir = ⟨σ.dir.inode, (20 * k : ℕ)⟩ := by rw [← hpos]
    have hle := hok.dir.length_le
    have hmax := maxEntries_eq
    -- the reading after a call that returns `x`
    let after (x : Option (List UInt8) × Dir) (w' : World) : Reading := ⟨⟨w', σ.state.live⟩, x.2,
      σ.returned ++ x.1.toList.map fun name => (recordBefore x.2, name)⟩
    have hwp : wp P (dirReaddir σ.dir) (fun x w' => (after x w').Ok s ∧
        Cursor.Step DirEntry.view (σ.cursor s) (.next x.1) ((after x w').cursor s) ∧ w' = σ.state.world)
        (fun _ _ => True) σ.state.world := by
      rw [Reading.cursor_of_pos hpos, hdir]
      refine wp_readdirLoop hP hok.dir maxEntries k hk (by omega) (by omega) (fun j e hs he => ?_) fun hs => ?_
      · obtain ⟨hkj, ⟨e', he', hu⟩, _⟩ := search_eq_some.mp hs
        rw [he] at he'
        obtain rfl := Option.some.inj he'
        obtain ⟨hj, _⟩ := List.getElem?_eq_some_iff.mp he
        have hback : recordBefore ⟨σ.dir.inode, (20 * (j + 1) : ℕ)⟩ = j := by
          show (((20 * (j + 1) : ℕ) : ℤ)).toNat / 20 - 1 = j
          omega
        refine ⟨⟨hok.dir, j + 1, by omega, by omega, rfl⟩, ?_, rfl⟩
        rw [Reading.cursor_of_pos (k := j + 1) rfl]
        simp only [after, Option.toList_some, List.map_cons, List.map_nil, hback]
        exact .found (by rw [search_view]; exact hs) he (by rw [DirEntry.view, hu]; rfl)
      · refine ⟨⟨hok.dir, max k (entries σ.state.world s).length, by omega, by omega, rfl⟩, ?_, rfl⟩
        rw [Reading.cursor_of_pos (k := max k (entries σ.state.world s).length) rfl]
        simp only [after, Option.toList_none, List.map_nil, List.append_nil]
        exact .finished (by rw [search_view]; exact hs)
    obtain ⟨hok', hstep, hw⟩ := wp_iff_runs.mp hwp _ _ runs
    refine ⟨hok', hstep, .inl ⟨r, rfl, ?_⟩⟩
    rw [hw]

/-- A record in use stays while no call is about its name. -/
theorem ReadStep.keeps (hP : P.NoFail) (h : ReadStep P s σ ev σ') (hok : σ.Ok s) {k : ℕ} {e : DirEntry}
    (he : (entries σ.state.world s)[k]? = some e) (hu : e.inUse = true)
    (hev : k = 0 ∨ ∀ d, ev = .call d → ¬d.About e.name) :
    (entries σ'.state.world s)[k]? = some e := by
  obtain ⟨_, _, ⟨r, _, hst⟩ | ⟨d, hd, ht⟩⟩ := h.simulates hP hok
  · rw [hst, he]
  · exact ht.stays he hu (hev.imp_right fun hno => hno d hd)

/-- A name stays where it is while no call is about it. -/
theorem ReadStep.listed (hP : P.NoFail) (h : ReadStep P s σ ev σ') (hok : σ.Ok s) {k : ℕ} {name : List UInt8}
    (hl : σ'.Listed s k name) (hev : ∀ d, ev = .call d → ¬d.About name) : σ.Listed s k name := by
  obtain ⟨e, he, hu, rfl⟩ := hl
  obtain ⟨_, _, ⟨r, _, hst⟩ | ⟨d, hd, ht⟩⟩ := h.simulates hP hok
  · rw [hst] at he
    exact ⟨e, he, hu, rfl⟩
  · exact ⟨e, ht.came_from he hu (hev d hd), hu, rfl⟩

/-- What a call of `dir_readdir` returns is the name of the record in front of the new position. -/
theorem ReadStep.returns (hP : P.NoFail) (hok : σ.Ok s) {name : List UInt8}
    (h : ReadStep P s σ (.readdir (some name)) σ') :
    ∃ k, 1 ≤ k ∧ σ.Listed s k name ∧ σ'.returned = σ.returned ++ [(k, name)] := by
  obtain ⟨_, hstep, _⟩ := h.simulates hP hok
  obtain ⟨k, hk1, _, hpos⟩ := hok.pos
  rw [Reading.cursor_of_pos hpos] at hstep
  generalize hc : σ'.cursor s = c at hstep
  have hret : σ'.returned = c.seen := by rw [← hc]; rfl
  rw [hret]
  cases hstep with
  | @found j e _ hs he hb =>
    obtain ⟨hkj, ⟨e', he', hv⟩, _⟩ := search_eq_some.mp hs
    have hu : e.inUse = true := by
      rw [← DirEntry.isSome_view, hb]
      rfl
    rw [DirEntry.view, if_pos hu] at hb
    exact ⟨j, hk1.trans hkj, ⟨e, he, hu, Option.some.inj hb⟩, rfl⟩

/-! ### The enumeration -/

/-- The directory has just been opened, and its record 0 is in use. -/
structure Reading.Fresh (s : ℕ) (σ : Reading) : Prop where
  dir : DirOpen σ.state.live σ.state.world σ.dir.inode s
  pos : σ.dir.pos = 20
  returned : σ.returned = []
  parent : ∃ e, (entries σ.state.world s)[0]? = some e ∧ e.inUse = true

/-- What an enumeration from `σ₀` has done when it is at `σ`: record 0 is as it was and has not been
returned; what the next call returns is in the directory; and when that call is the one that finds
nothing more, a name in record `k` that no call has been about has been returned once for this record,
and once in all if no other record had it. -/
structure Enumerates (P : Policy) (s : ℕ) (σ₀ : Reading) (evs : List ReadEvent) (σ : Reading) : Prop where
  parent : (entries σ.state.world s)[0]? = (entries σ₀.state.world s)[0]?
  skips : ∀ x ∈ σ.returned, 1 ≤ x.1
  present : ∀ name σ', ReadStep P s σ (.readdir (some name)) σ' → ∃ k, 1 ≤ k ∧ σ.Listed s k name ∧
    σ'.returned = σ.returned ++ [(k, name)]
  once : ∀ k name, 1 ≤ k → σ₀.Listed s k name → (∀ d, .call d ∈ evs → ¬d.About name) →
    ∀ σ', ReadStep P s σ (.readdir none) σ' →
      (σ'.returned.map Prod.fst).count k = 1 ∧ σ'.returned.count (k, name) = 1 ∧
      ((∀ j, 1 ≤ j → σ₀.Listed s j name → j = k) → (σ'.returned.map Prod.snd).count name = 1)

/-- Every enumeration of a directory, in every order of calls. -/
def EnumeratesOnce (P : Policy) : Prop := ∀ s σ₀ evs σ, Reading.Fresh s σ₀ →
  Trace (ReadStep P s) σ₀ evs σ → Enumerates P s σ₀ evs σ

theorem Reading.Fresh.ok (h : σ.Fresh s) : σ.Ok s := ⟨h.dir, 1, le_refl _, by omega, h.pos⟩

theorem count_snd {β : Type} [BEq β] [LawfulBEq β] {l : List (ℕ × β)} {k : ℕ} {b : β}
    (h : ∀ x ∈ l, x.2 = b → x.1 = k) : (l.map Prod.snd).count b = l.count (k, b) := by
  rw [List.count, List.countP_map]
  apply List.countP_congr
  intro x hx
  simp only [Function.comp_apply, beq_iff_eq]
  constructor
  · intro hb
    exact Prod.ext (h x hx hb) hb
  · intro heq
    rw [heq]

/-- **`dir_readdir` returns what stays once**, when no memory allocation fails. -/
theorem readdir_enumerates (hP : P.NoFail) : EnumeratesOnce P := by
  intro s σ₀ evs σ h₀ h
  have hok : σ.Ok s := h.invariant (fun _ _ _ hI hs => (hs.simulates hP hI).1) h₀.ok
  have hseen₀ : (σ₀.cursor s).seen = [] := h₀.returned
  have hpos₀ : (σ₀.cursor s).pos = 1 := by
    rw [Reading.cursor_of_pos (k := 1) h₀.pos]
  refine ⟨?_, ?_, fun name σ' hs => hs.returns hP hok, fun k name hk hl hev σ' hend => ?_⟩
  · obtain ⟨e, he, hu⟩ := h₀.parent
    have hinv := h.invariant (I := fun τ : Reading => τ.Ok s ∧ (entries τ.state.world s)[0]? = some e)
      (fun _ _ _ hI hs => ⟨(hs.simulates hP hI.1).1, hs.keeps hP hI.1 hI.2 hu (.inl rfl)⟩) ⟨h₀.ok, he⟩
    rw [hinv.2, he]
  · obtain ⟨_, hrun⟩ := h.simulates (Cursor.Step DirEntry.view) (I := Reading.Ok s) (f := Reading.cursor s)
      (g := ReadEvent.event) (fun _ _ _ hI hs => ⟨(hs.simulates hP hI).1, (hs.simulates hP hI).2.1⟩) h₀.ok
    have hord := hrun.invariant (I := Cursor.Ordered 1) (fun _ _ _ hI hs => hI.step hs)
      ⟨hpos₀.ge, by simp [hseen₀], by simp [hseen₀]⟩
    exact fun x hx => (hord.below x hx).1
  · obtain ⟨e, he, hu, rfl⟩ := hl
    have hquiet := h.restrict (A := fun ev => ∀ d, ev = .call d → ¬d.About e.name)
      fun ev hmem d hd => hev d (hd ▸ hmem)
    obtain ⟨⟨_, hstay⟩, hrun⟩ := hquiet.simulates
      (fun c ev c' => Cursor.Step DirEntry.view c ev c' ∧ c'.table[k]? = some e)
      (I := fun τ : Reading => τ.Ok s ∧ (entries τ.state.world s)[k]? = some e) (f := Reading.cursor s)
      (g := ReadEvent.event)
      (fun _ _ _ hI hs => by
        have hkeep := hs.1.keeps hP hI.1 hI.2 hu (.inr hs.2)
        exact ⟨⟨(hs.1.simulates hP hI.1).1, hkeep⟩, (hs.1.simulates hP hI.1).2.1, hkeep⟩) ⟨h₀.ok, he⟩
    have hview : e.view = some e.name := if_pos hu
    obtain ⟨hfst, hcount⟩ := Cursor.returned_once hk hview hpos₀ hseen₀ he hrun (hend.simulates hP hok).2.1
    refine ⟨hfst, hcount, fun huniq => ?_⟩
    -- no other record has had the name in between
    have honly := (hquiet.invariant (I := fun τ : Reading => τ.Ok s ∧
        (∀ j, 1 ≤ j → τ.Listed s j e.name → j = k) ∧ ∀ x ∈ τ.returned, x.2 = e.name → x.1 = k)
      (fun a ev b hI hs => by
        obtain ⟨hstep, hno⟩ := hs
        refine ⟨(hstep.simulates hP hI.1).1, fun j hj hl => hI.2.1 j hj (hstep.listed hP hI.1 hl hno),
          fun x hx hname => ?_⟩
        cases ev with
        | call d =>
          cases hstep with
          | call _ _ => exact hI.2.2 x hx hname
        | readdir r =>
          cases r with
          | none =>
            cases hstep with
            | readdir _ => exact hI.2.2 x (by simpa using hx) hname
          | some nm =>
            obtain ⟨j, hj, hl, hret⟩ := hstep.returns hP hI.1
            rw [hret] at hx
            rcases List.mem_append.mp hx with hx | hx
            · exact hI.2.2 x hx hname
            · obtain rfl := List.mem_singleton.mp hx
              obtain rfl : nm = e.name := hname
              exact hI.2.1 j hj hl)
      ⟨h₀.ok, huniq, by simp [h₀.returned]⟩).2.2
    refine (count_snd (k := k) fun x hx hname => ?_).trans hcount
    cases hend with
    | readdir _ => exact honly x (by simpa using hx) hname

/-! ### A directory with one entry -/

/-- A formatted device, with one name added to the root directory, which stays open. -/
def makeListing : Fs (ℕ × Bool) := do
  filesysInit true
  match ← dirOpenRoot with
  | none => return (0, false)
  | some d => return (d.inode, ← dirAdd d [97] 5 false)

theorem wp_makeListing (hP : P.NoFail) (h : Blank w) :
    wp P makeListing (fun r w' => r.2 = true → DirOpen {1, 0} w' r.1 1) (fun _ _ => True) w := by
  rw [makeListing, wp_bind]
  refine wp_mono_ret (wp_filesysInit_format hP h) fun _ w₁ hf => ?_
  rw [wp_bind]
  refine wp_dirOpenRoot hP hf fun p w₂ hdir => ?_
  rw [wp_bind]
  exact wp_dirAdd hP hdir (by simp) (fun w' ha _ _ => (wp_pure _).mpr fun _ => ha.dir)
    (fun w' _ _ _ _ => (wp_pure _).mpr fun hfalse => absurd hfalse (by simp)) fun _ _ _ _ => trivial

def listed16 : World := (runArray makeListing onesEnv (newMachine 16)).2.2

/-- What has been made: of its 16 records the first is the parent's, the second the one of the name, and the others
are free. -/
theorem made_listed16 : (runArray makeListing onesEnv (newMachine 16)).1 = .ok (3, true) ∧
    ((entries listed16 1)[0]?).map DirEntry.inUse = some true ∧
    ((entries listed16 1)[1]?).map (fun e => (e.inUse, e.name)) = some (true, [97]) ∧
    (∀ i < 16, i ≠ 0 → i ≠ 1 → ((entries listed16 1)[i]?).map DirEntry.inUse = some false) ∧
    (entries listed16 1).length = 16 := by
  decide +kernel

theorem runs_listed16 : Runs .memory makeListing (newMachine 16) (.ok (3, true)) listed16 := by
  rw [← made_listed16.1]
  exact runs_runArray makeListing onesEnv_memory fun _ => trivial

/-- The root directory has just been opened for reading. -/
def reading16 : Reading := ⟨⟨listed16, {1, 0}⟩, ⟨3, 20⟩, []⟩

theorem reading16_fresh : reading16.Fresh 1 where
  dir := wp_iff_runs.mp (wp_makeListing Policy.memory_noFail (newMachine_blank (by decide) (by decide)))
    _ _ runs_listed16 rfl
  pos := rfl
  returned := rfl
  parent := Option.map_eq_some_iff.mp made_listed16.2.1

theorem reading16_listed : reading16.Listed 1 1 [97] := by
  obtain ⟨e, he, heq⟩ := Option.map_eq_some_iff.mp made_listed16.2.2.1
  obtain ⟨hu, hname⟩ := Prod.mk.inj heq
  exact ⟨e, he, hu, hname⟩

/-- The name is returned by the first call, and the second ends the enumeration. -/
theorem readdir_enumerates_listed : ∃ σ σ', Trace (ReadStep .memory 1) reading16 [.readdir (some [97])] σ ∧
    ReadStep .memory 1 σ (.readdir none) σ' ∧ (σ'.returned.map Prod.snd).count [97] = 1 := by
  let w₁ : World := (runArray (dirReaddir ⟨3, 20⟩) plainEnv listed16).2.2
  have hrun₁ : Runs .memory (dirReaddir ⟨3, 20⟩) listed16 (.ok (some [97], ⟨3, 40⟩)) w₁ :=
    runs_plain _ _ (by decide +kernel)
  have hrun₂ : Runs .memory (dirReaddir ⟨3, 40⟩) w₁ (.ok (none, ⟨3, 320⟩))
      (runArray (dirReaddir ⟨3, 40⟩) plainEnv w₁).2.2 := runs_plain _ _ (by decide +kernel)
  have htrace := Trace.single (ReadStep.readdir (σ := reading16) (s := 1) hrun₁)
  have hend := ReadStep.readdir (s := 1) (σ := ⟨⟨w₁, {1, 0}⟩, ⟨3, 40⟩, [(1, [97])]⟩) hrun₂
  refine ⟨_, _, htrace, hend, ?_⟩
  have hen := readdir_enumerates Policy.memory_noFail 1 reading16 _ _ reading16_fresh htrace
  refine (hen.once 1 [97] (le_refl 1) reading16_listed (by simp) _ hend).2.2 fun j hj hl => ?_
  -- the other records are free
  obtain ⟨e, he, hu, _⟩ := hl
  obtain ⟨_, _, _, hfree, hlen⟩ := made_listed16
  obtain ⟨hjl, _⟩ := List.getElem?_eq_some_iff.mp he
  by_contra hne
  have := hfree j (by rw [← hlen]; exact hjl) (by omega) hne
  rw [show (entries listed16 1)[j]? = some e from he, Option.map_some, hu] at this
  exact absurd this (by simp)

/-- When the bounce buffer cannot be allocated, the first call already returns false. -/
theorem readdir_misses : ¬EnumeratesOnce .any := by
  intro hall
  have hen := hall 1 reading16 [] reading16 reading16_fresh (.nil _)
  let env : Env := ⟨fun _ => false, fun _ _ => 0, false⟩
  have hres : (runArray (dirReaddir ⟨3, 20⟩) env listed16).1 = .ok (none, ⟨3, 20⟩) := by decide +kernel
  have hrun : Runs .any (dirReaddir ⟨3, 20⟩) listed16 (.ok (none, ⟨3, 20⟩))
      (runArray (dirReaddir ⟨3, 20⟩) env listed16).2.2 := by
    rw [← hres]
    exact runs_runArray _ ⟨fun _ => trivial, fun _ => trivial⟩ fun _ => trivial
  have hend := ReadStep.readdir (s := 1) (σ := reading16) hrun
  exact absurd (hen.once 1 [97] (le_refl 1) reading16_listed (by simp) _ hend).2.1 (by decide)

end Pintos.Filesys
