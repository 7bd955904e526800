import Pintos.Filesys.ParentRecord

/-!
# A directory is a map

The records of a directory behind the first bind names to sectors.  `IsMap s σ M` says that the directory in sector
`s` is the map `M`: no two of these records have one name, and the record of a name has the sector that the map has.
`dir_add` and `dir_remove` are the updates of the map, `lookup` and `dir_lookup` look names up in it, and `dir_empty`
tells whether it has any.

Record 0 is the parent's.  It has no name: what its name field holds is what was on the stack.
-/

namespace Pintos.Filesys

open SlotTable

variable {w w' : World} {live : Set ℕ} {s : ℕ} {l : List DirEntry} {e : DirEntry} {j k c : ℕ}

/-- A name is a C string. -/
abbrev CName := {name : List UInt8 // 0 ∉ name}

/-- The sectors that the names are bound to. -/
abbrev Bindings := CName → Option ℕ

/-- A record in use with this name. -/
def hasKey (n : CName) (e : DirEntry) : Bool := named n.1 e

/-- A call of `dir_add` or `dir_remove`. -/
inductive NameCall
  | add (name : CName) (sector : ℕ) (isDir : Bool)
  | remove (name : CName)

def NameCall.run (d : Dir) : NameCall → Fs Bool
  | .add name c isDir => dirAdd d name.1 c isDir
  | .remove name => dirRemove d name.1

/-- Whether the call succeeds on a map. -/
def NameCall.succeeds (M : Bindings) : NameCall → Bool
  | .add name _ _ => decide (name.1 ≠ [] ∧ name.1.length ≤ 14 ∧ M name = none)
  | .remove name => (M name).isSome

/-- What it makes of the map when it does. -/
def NameCall.update (M : Bindings) : NameCall → Bindings
  | .add name c _ => Function.update M name (some c)
  | .remove name => Function.update M name none

/-- The map after a call. -/
def NameCall.effect (M : Bindings) (a : NameCall) : Bindings := if a.succeeds M then a.update M else M

/-! ## The table -/

/-- The table of a directory whose names are bound as in the map: the record of the parent is in use, and every other
record in use has a name of its own. -/
structure Represents (l : List DirEntry) (M : Bindings) : Prop where
  parent : ∃ e, l[0]? = some e ∧ e.inUse = true
  named : ∀ j e, 1 ≤ j → l[j]? = some e → e.inUse = true → ∃ n, hasKey n e = true
  apart : KeysApart hasKey 1 l
  bound : ∀ n, (find hasKey 1 l n).map DirEntry.inodeSector = M n

theorem hasKey_unique {n m : CName} (hn : hasKey n e = true) (hm : hasKey m e = true) : m = n :=
  Subtype.ext ((name_of_named hm m.2).symm.trans (name_of_named hn n.2))

theorem hasKey_free (h : e.inUse = false) (n : CName) : hasKey n e = false := by
  rw [hasKey, Filesys.named, h]
  rfl

namespace Represents

variable {M : Bindings}

theorem bound_none (h : Represents l M) (n : CName) : M n = none ↔ search (Filesys.named n.1) l 1 = none := by
  rw [← h.bound n, Option.map_eq_none_iff]
  exact find_eq_none

theorem bound_some (h : Represents l M) (n : CName) :
    M n = some c ↔ ∃ j e, 1 ≤ j ∧ l[j]? = some e ∧ hasKey n e = true ∧ e.inodeSector = c := by
  rw [← h.bound n, Option.map_eq_some_iff]
  constructor
  · intro hex
    obtain ⟨e, he, hc⟩ := hex
    obtain ⟨j, hj, hget, hkey⟩ := (find_eq_some h.apart).mp he
    exact ⟨j, e, hj, hget, hkey, hc⟩
  · intro hex
    obtain ⟨j, e, hj, hget, hkey, hc⟩ := hex
    exact ⟨e, (find_eq_some h.apart).mpr ⟨j, hj, hget, hkey⟩, hc⟩

/-- What a search finds is what the map has. -/
theorem bound_search (h : Represents l M) {n : CName} (hs : search (Filesys.named n.1) l 1 = some j)
    (he : l[j]? = some e) : M n = some e.inodeSector := by
  obtain ⟨hj, ⟨e', he', hkey⟩, _⟩ := search_eq_some.mp hs
  rw [he] at he'
  obtain rfl := Option.some.inj he'
  exact (h.bound_some n).mpr ⟨j, e, hj, he, hkey, rfl⟩

/-- No record is in use exactly where no name is bound. -/
theorem empty_iff (h : Represents l M) : search DirEntry.inUse l 1 = none ↔ ∀ n, M n = none := by
  constructor
  · intro hs n
    rw [h.bound_none n, search_eq_none]
    intro j hj e he
    exact hasKey_free (search_eq_none.mp hs j hj e he) n
  · intro hnone
    rw [search_eq_none]
    intro j hj e he
    by_contra hu
    obtain ⟨n, hn⟩ := h.named j e hj he (by simpa using hu)
    have hno := search_eq_none.mp ((h.bound_none n).mp (hnone n)) j hj e he
    rw [show Filesys.named n.1 e = true from hn] at hno
    cases hno

/-- The first free slot is not the parent's. -/
theorem firstFree_pos (h : Represents l M) : 1 ≤ firstFree DirEntry.inUse l := by
  obtain ⟨e, he, hu⟩ := h.parent
  exact Nat.one_le_iff_ne_zero.mpr (firstFree_ne he hu)

theorem firstFree_free (he : l[firstFree DirEntry.inUse l]? = some e) : e.inUse = false := by
  cases hu : e.inUse with
  | false => rfl
  | true => exact absurd rfl (firstFree_ne he hu)

/-- `dir_add` binds a name. -/
theorem add (h : Represents l M) {n : CName} (hn : M n = none) (he : e.Records n.1 c) :
    Represents (put l (firstFree DirEntry.inUse l) e) (Function.update M n (some c)) ∧
      (put l (firstFree DirEntry.inUse l) e)[0]? = l[0]? := by
  have hle : firstFree DirEntry.inUse l ≤ l.length := firstFree_le
  have hpos := h.firstFree_pos
  have hkey : hasKey n e = true := he.named
  obtain ⟨hapart, hself, hother⟩ := find_insert h.apart hle hpos
    (fun a ha m => hasKey_free (firstFree_free ha) m) (find_eq_none.mpr ((h.bound_none n).mp hn)) hkey
    fun m hm => hasKey_unique hkey hm
  have hzero : (put l (firstFree DirEntry.inUse l) e)[0]? = l[0]? := put_of_ne hle (by omega)
  refine ⟨⟨?_, fun j e' hj hget hu => ?_, hapart, fun m => ?_⟩, hzero⟩
  · rw [hzero]
    exact h.parent
  · rcases (getElem?_put hle).mp hget with ⟨_, rfl⟩ | ⟨_, hget⟩
    · exact ⟨n, hkey⟩
    · exact h.named j e' hj hget hu
  · by_cases hm : m = n
    · rw [hm, Function.update_self, hself, Option.map_some, he.sector]
    · rw [Function.update_of_ne hm, hother m hm, h.bound m]

/-- `dir_remove` unbinds one. -/
theorem remove (h : Represents l M) {n : CName} (hs : search (Filesys.named n.1) l 1 = some k)
    (he : l[k]? = some e) :
    Represents (put l k (entryAt (e.setInUse false) 0)) (Function.update M n none) ∧
      (put l k (entryAt (e.setInUse false) 0))[0]? = l[0]? := by
  obtain ⟨hk, hlt⟩ := search_lt hs
  obtain ⟨_, ⟨e', he', hkey⟩, _⟩ := search_eq_some.mp hs
  rw [he] at he'
  obtain rfl := Option.some.inj he'
  have hcleared : ∀ m, hasKey m (entryAt (e.setInUse false) 0) = false := fun m => hasKey_free (inUse_cleared e) m
  obtain ⟨hapart, hself, hother⟩ := find_erase h.apart hk he hkey
    (fun m hm => hasKey_unique hkey hm) hcleared
  have hzero : (put l k (entryAt (e.setInUse false) 0))[0]? = l[0]? := put_of_ne hlt.le (by omega)
  refine ⟨⟨?_, fun j e' hj hget hu => ?_, hapart, fun m => ?_⟩, hzero⟩
  · rw [hzero]
    exact h.parent
  · rcases (getElem?_put hlt.le).mp hget with ⟨_, rfl⟩ | ⟨_, hget⟩
    · rw [inUse_cleared] at hu
      cases hu
    · exact h.named j e' hj hget hu
  · by_cases hm : m = n
    · rw [hm, Function.update_self, hself]
      rfl
    · rw [Function.update_of_ne hm, hother m hm, h.bound m]

end Represents

/-! ## The calls -/

/-- The directory in sector `s` is the map `M`, and no inode is denied to writers. -/
structure IsMap (s : ℕ) (σ : DirState) (M : Bindings) : Prop where
  ok : DirOk σ.live σ.world s
  allows : Allows σ.world
  table : Represents (entries σ.world s) M

/-- The inode of a regular file, other than the free map's. -/
structure IsFile (σ : DirState) (s c : ℕ) : Prop where
  live : c ∈ σ.live
  ne_zero : c ≠ 0
  ne : c ≠ s
  notDir : (page σ.world c).isDir = false

/-- The callers pass sector numbers and any name but `.` and `..`; the inode of a new directory exists, and a name
that is removed is that of a regular file. -/
def NameCall.Enabled (s : ℕ) (σ : DirState) : NameCall → Prop
  | .add name c isDir => name.1 ≠ dot ∧ name.1 ≠ dotDot ∧ c < 2 ^ 32 ∧ (isDir = true → CanAdd σ.live σ.world s c)
  | .remove name => ∀ k e, search (named name.1) (entries σ.world s) 1 = some k → (entries σ.world s)[k]? = some e →
    IsFile σ s e.inodeSector

/-- The file of the directory has its greatest length, and each of its 425856 records is in use. -/
def DirFull (w : World) (s : ℕ) : Prop := ∀ k, k < 425856 → ∃ e, (entries w s)[k]? = some e ∧ e.inUse = true

theorem inUse_of_lt_firstFree (h : k < firstFree DirEntry.inUse l) : ∃ e, l[k]? = some e ∧ e.inUse = true := by
  have hlt : k < l.length := lt_of_lt_of_le h firstFree_le
  refine ⟨l[k], List.getElem?_eq_getElem hlt, ?_⟩
  by_contra hu
  unfold firstFree at h
  cases hs : search (fun e => !DirEntry.inUse e) l 0 with
  | none =>
    have hno := search_eq_none.mp hs k (Nat.zero_le k) _ (List.getElem?_eq_getElem hlt)
    simp [hu] at hno
  | some j =>
    rw [hs] at h
    obtain ⟨_, _, hfirst⟩ := search_eq_some.mp hs
    have hno := hfirst k (Nat.zero_le k) h _ (List.getElem?_eq_getElem hlt)
    simp [hu] at hno

/-- What a call leaves where it returns `r`: the result is the one on the map, the directory is the new map, and the
record of the parent is as it was. -/
structure Replies (s : ℕ) (σ : DirState) (M : Bindings) (a : NameCall) (r : Bool) (w' : World) : Prop where
  result : r = a.succeeds M
  map : IsMap s ⟨w', surviving σ.live w'⟩ (a.effect M)
  parent : (entries w' s)[0]? = (entries σ.world s)[0]?
  handles : ∀ q, Holds σ.world q s → Holds w' q s

theorem NameCall.effect_of_true {M : Bindings} {a : NameCall} (h : a.succeeds M = true) : a.effect M = a.update M :=
  if_pos h

theorem NameCall.effect_of_false {M : Bindings} {a : NameCall} (h : a.succeeds M = false) : a.effect M = M := by
  rw [NameCall.effect, h]
  rfl

variable {σ σ' : DirState} {M : Bindings} {p : ℕ} {pos : ℤ}

/-- A call that fails leaves the directory as it is. -/
theorem IsMap.unchanged (h : IsMap s σ M) {a : NameCall} (hok : DirOk (surviving σ.live w') w' s) (hallow : Allows w')
    (hk : Kept s σ.world w') (hhold : ∀ q, Holds σ.world q s → Holds w' q s) (ha : a.succeeds M = false) :
    Replies s σ M a false w' where
  result := ha.symm
  map := by
    rw [NameCall.effect_of_false ha]
    refine ⟨hok, hallow, ?_⟩
    rw [hk.entries]
    exact h.table
  parent := by rw [hk.entries]
  handles := hhold

/-- **A call on the directory is the call on the map.**  It does not return where the directory is full. -/
theorem IsMap.wp_call (h : IsMap s σ M) (hp : Holds σ.world p s) {a : NameCall} (ha : a.Enabled s σ) :
    wp .space (a.run ⟨p, pos⟩) (Replies s σ M a) (fun e _ => e = .exit (-1) ∧ DirFull σ.world s) σ.world := by
  have hP : Policy.space.NoFail := fun _ hb => hb
  have hopen : DirOpen σ.live σ.world p s := h.ok.opened hp
  cases a with
  | add name c isDir =>
    obtain ⟨_, _, hc, hcan⟩ := ha
    refine wp_dirAdd hP hopen hcan (fun w' har hallow hadd => ?_) (fun w' har hallow hk hwhy => ?_)
      fun w' _ _ hpast => ⟨rfl, fun k hk => inUse_of_lt_firstFree (by omega)⟩
    · obtain ⟨e, hput⟩ := hadd.table
      have hnone : M name = none := (h.table.bound_none name).mpr hadd.fresh
      have hsucc : NameCall.succeeds M (.add name c isDir) = true :=
        decide_eq_true ⟨hadd.name_ne, hadd.name_le, hnone⟩
      obtain ⟨hrep, hzero⟩ := h.table.add hnone (DirEntry.filled_records e hadd.name_le name.2 hc)
      refine ⟨hsucc.symm, ?_, ?_, fun q => har.handles q s⟩
      · rw [NameCall.effect_of_true hsucc, surviving_eq har.dir.ok]
        refine ⟨har.dir.dirOk, hallow h.allows, ?_⟩
        rw [hput]
        exact hrep
      · rw [hput, hzero]
    · have hfail : NameCall.succeeds M (.add name c isDir) = false := by
        apply decide_eq_false
        rintro ⟨hne, hle, hnone⟩
        rcases hwhy with heq | hlong | hbound | hno | hdeny
        · exact hne heq
        · omega
        · exact hbound ((h.table.bound_none name).mp hnone)
        · exact hno
        · exact hdeny h.allows
      refine h.unchanged ?_ (hallow h.allows) hk (fun q => har.handles q s) hfail
      rw [surviving_eq har.dir.ok]
      exact har.dir.dirOk
  | remove name =>
    have hcan : ∀ k e, search (named name.1) (entries σ.world s) 1 = some k → (entries σ.world s)[k]? = some e →
        CanRemove σ.live σ.world s e.inodeSector := by
      intro k e hs he
      obtain ⟨hlive, h0, hne, hfile⟩ := ha k e hs he
      refine ⟨hlive, h0, hne, fun hdir => ?_⟩
      rw [hfile] at hdir
      cases hdir
    have hfile : ¬BoundToDir σ.world s name.1 := by
      rintro ⟨k, e, hs, he, hdir⟩
      rw [(ha k e hs he).notDir] at hdir
      cases hdir
    refine wp_dirRemove hP hopen hcan (fun w' hst hallow hrem => ?_) (fun w' hst hallow hk hwhy => ?_)
      fun hdir => absurd hdir hfile
    · obtain ⟨k, e, hs, he, hput⟩ := hrem.table
      have hsucc : NameCall.succeeds M (.remove name) = true := by
        show (M name).isSome = true
        rw [h.table.bound_search hs he]
        rfl
      obtain ⟨hrep, hzero⟩ := h.table.remove hs he
      refine ⟨hsucc.symm, ?_, ?_, hst.handles⟩
      · rw [NameCall.effect_of_true hsucc]
        refine ⟨hst.dir, hallow h.allows, ?_⟩
        rw [hput]
        exact hrep
      · rw [hput, hzero]
    · have hfail : NameCall.succeeds M (.remove name) = false := by
        show (M name).isSome = false
        rcases hwhy with hnone | hno | hdeny | hdir
        · rw [(h.table.bound_none name).mpr hnone]
          rfl
        · exact hno.elim
        · exact absurd h.allows hdeny
        · exact absurd hdir hfile
      exact h.unchanged hst.dir (hallow h.allows) hk hst.handles hfail

/-! ## Runs -/

/-- A call that returns. -/
inductive NameStep (s : ℕ) (σ : DirState) (a : NameCall) : DirState → Prop
  | call {p : ℕ} {pos : ℤ} {r : Bool} {w' : World} (holds : Holds σ.world p s) (enabled : a.Enabled s σ)
      (runs : Runs .space (a.run ⟨p, pos⟩) σ.world (.ok r) w') : NameStep s σ a ⟨w', surviving σ.live w'⟩

/-- What the callers see of the directory after a run is what they would see of the map. -/
structure Agrees (s : ℕ) (σ₀ σ : DirState) (M : Bindings) : Prop where
  unique : ∀ j k e e', 1 ≤ j → 1 ≤ k → (entries σ.world s)[j]? = some e → (entries σ.world s)[k]? = some e' →
    e.inUse = true → e'.inUse = true → e.name = e'.name → j = k
  lookup : ∀ p pos (n : CName) r w', Holds σ.world p s → Runs .space (lookup ⟨p, pos⟩ n.1) σ.world r w' →
    w' = σ.world ∧ ∃ found, r = .ok found ∧ (found.map fun x => x.1.inodeSector) = M n
  dirLookup : ∀ p pos (n : CName) r w', Holds σ.world p s → n.1 ≠ dot → n.1 ≠ dotDot →
    Runs .space (dirLookup (some ⟨p, pos⟩) n.1) σ.world r w' →
    (M n = none → r = .ok none) ∧
      ∀ c, M n = some c → c < σ.world.mem.fsSize → ∃ q, r = .ok (some q) ∧ Holds w' q c
  dotDot : ∀ p pos e r w', Holds σ.world p s → (entries σ₀.world s)[0]? = some e →
    Runs .space (Filesys.dirLookup (some ⟨p, pos⟩) Filesys.dotDot) σ.world r w' →
    e.inodeSector < σ.world.mem.fsSize → ∃ q, r = .ok (some q) ∧ Holds w' q e.inodeSector
  empty : ∀ p pos r w', Holds σ.world p s → Runs .space (dirEmpty (some ⟨p, pos⟩)) σ.world r w' →
    w' = σ.world ∧ ∃ b, r = .ok b ∧ (b = true ↔ ∀ n, M n = none)
  calls : ∀ p pos (a : NameCall) r w', Holds σ.world p s → a.Enabled s σ →
    Runs .space (a.run ⟨p, pos⟩) σ.world r w' →
    r = .ok (a.succeeds M) ∨ r = .error (.exit (-1)) ∧ DirFull σ.world s

/-- `lookup` finds what the map has, and changes nothing. -/
theorem IsMap.wp_lookup (h : IsMap s σ M) (hp : Holds σ.world p s) (n : CName) {E : Stop → World → Prop} :
    wp .space (Filesys.lookup ⟨p, pos⟩ n.1)
      (fun r w' => w' = σ.world ∧ (r.map fun x => x.1.inodeSector) = M n) E σ.world :=
  Filesys.wp_lookup (fun _ hb => hb) (h.ok.opened hp)
    (fun _ _ hs he => ⟨rfl, (h.table.bound_search hs he).symm⟩)
    fun hs => ⟨rfl, ((h.table.bound_none n).mpr hs).symm⟩

/-- `dir_lookup` opens the inode that the map has. -/
theorem IsMap.wp_dirLookup (h : IsMap s σ M) (hp : Holds σ.world p s) {n : CName} (hdot : n.1 ≠ dot)
    (hdots : n.1 ≠ dotDot) :
    wp .space (Filesys.dirLookup (some ⟨p, pos⟩) n.1)
      (fun r w' => (M n = none → r = none) ∧ ∀ c, M n = some c → ∃ q, r = some q ∧ Holds w' q c)
      (fun _ _ => ∃ c, M n = some c ∧ σ.world.mem.fsSize ≤ c) σ.world := by
  rw [Filesys.dirLookup, if_neg hdots, if_neg hdot, wp_bind]
  refine wp_mono (h.wp_lookup hp n (E := fun _ _ => False)) (fun r w' hr => ?_) fun _ _ hf => hf.elim
  obtain ⟨rfl, hM⟩ := hr
  cases r with
  | none =>
    have hnone : M n = none := hM.symm
    refine (wp_pure _).mpr ⟨fun _ => rfl, fun c hc => ?_⟩
    rw [hnone] at hc
    cases hc
  | some x =>
    have hsome : M n = some x.1.inodeSector := hM.symm
    refine wp_mono (wp_inodeOpen_sector (fun _ hb => hb) h.ok.ok.mem) (fun r w' hr => ?_)
      fun _ _ hsize => ⟨_, hsome, hsize⟩
    obtain ⟨q, hq, hhold⟩ := hr
    refine ⟨fun hnone => ?_, fun c hc => ⟨q, hq, ?_⟩⟩
    · rw [hsome] at hnone
      cases hnone
    · rw [hsome] at hc
      obtain rfl := Option.some.inj hc
      exact hhold

/-- `dir_empty` tells whether the map has a name. -/
theorem IsMap.wp_dirEmpty (h : IsMap s σ M) (hp : Holds σ.world p s) {E : Stop → World → Prop} :
    wp .space (dirEmpty (some ⟨p, pos⟩)) (fun b w' => w' = σ.world ∧ (b = true ↔ ∀ n, M n = none)) E σ.world := by
  have hopen : DirOpen σ.live σ.world p s := h.ok.opened hp
  have hle := hopen.length_le
  have hmax := maxEntries_eq
  rw [dirEmpty, wp_bind]
  refine wp_scanEntries (fun _ hb => hb) hopen maxEntries 1 (by omega) (by omega) (fun j e hs _ => ?_) fun hs => ?_
  · refine (wp_pure _).mpr ⟨rfl, ?_⟩
    rw [← h.table.empty_iff, hs]
    simp
  · refine (wp_pure _).mpr ⟨rfl, ?_⟩
    rw [← h.table.empty_iff, hs]
    simp

/-- Two records in use behind the first have different names. -/
theorem Represents.unique (h : Represents l M) {e' : DirEntry} (hj : 1 ≤ j) (hk : 1 ≤ k) (he : l[j]? = some e)
    (he' : l[k]? = some e') (hu : e.inUse = true) (hu' : e'.inUse = true) (hname : e.name = e'.name) : j = k := by
  obtain ⟨n, hn⟩ := h.named j e hj he hu
  obtain ⟨m, hm⟩ := h.named k e' hk he' hu'
  have hnm : n = m := Subtype.ext ((name_of_named hn n.2).symm.trans (hname.trans (name_of_named hm m.2)))
  subst hnm
  exact h.apart n j k e e' hj hk he he' hn hm

theorem IsMap.agrees {σ₀ : DirState} (h : IsMap s σ M)
    (hzero : (entries σ.world s)[0]? = (entries σ₀.world s)[0]?) : Agrees s σ₀ σ M where
  unique := fun _ _ _ _ hj hk he he' hu hu' hname => h.table.unique hj hk he he' hu hu' hname
  lookup := by
    intro p pos n r w' hp hrun
    have hsat := wp_iff_runs.mp (h.wp_lookup hp n (E := fun _ _ => False)) r w' hrun
    cases r with
    | ok found => exact ⟨hsat.1, found, rfl, hsat.2⟩
    | error e => exact hsat.elim
  dirLookup := by
    intro p pos n r w' hp hdot hdots hrun
    have hsat := wp_iff_runs.mp (h.wp_dirLookup hp hdot hdots) r w' hrun
    cases r with
    | ok r =>
      refine ⟨fun hnone => congrArg _ (hsat.1 hnone), fun c hc _ => ?_⟩
      obtain ⟨q, hq, hhold⟩ := hsat.2 c hc
      exact ⟨q, congrArg _ hq, hhold⟩
    | error e =>
      obtain ⟨c, hc, hsize⟩ := hsat
      refine ⟨fun hnone => ?_, fun c' hc' hlt => ?_⟩
      · rw [hnone] at hc
        cases hc
      · rw [hc] at hc'
        obtain rfl := Option.some.inj hc'
        omega
  dotDot := by
    intro p pos e r w' hp he hrun hlt
    have hsat := wp_iff_runs.mp (wp_dirLookup_dotDot (fun _ hb => hb) (h.ok.opened hp) (hzero.trans he)) r w' hrun
    cases r with
    | ok r =>
      obtain ⟨q, hq, hhold⟩ := hsat
      exact ⟨q, congrArg _ hq, hhold⟩
    | error e' =>
      have hsize : σ.world.mem.fsSize ≤ e.inodeSector := hsat
      omega
  empty := by
    intro p pos r w' hp hrun
    have hsat := wp_iff_runs.mp (h.wp_dirEmpty hp (E := fun _ _ => False)) r w' hrun
    cases r with
    | ok b => exact ⟨hsat.1, b, rfl, hsat.2⟩
    | error e => exact hsat.elim
  calls := by
    intro p pos a r w' hp ha hrun
    have hsat := wp_iff_runs.mp (h.wp_call hp ha) r w' hrun
    cases r with
    | ok b => exact .inl (congrArg _ hsat.result)
    | error e => exact .inr ⟨congrArg _ hsat.1, hsat.2⟩

/-- The map, and the record of the parent, after a run. -/
theorem IsMap.run {as : List NameCall} (h : IsMap s σ M) (ht : Trace (NameStep s) σ as σ') :
    IsMap s σ' (as.foldl NameCall.effect M) ∧ (entries σ'.world s)[0]? = (entries σ.world s)[0]? := by
  induction ht generalizing M with
  | nil σ => exact ⟨h, rfl⟩
  | cons head _ ih =>
    obtain ⟨holds, enabled, runs⟩ := head
    have hreply := wp_iff_runs.mp (h.wp_call holds enabled) _ _ runs
    obtain ⟨hmap, hzero⟩ := ih hreply.map
    exact ⟨hmap, hzero.trans hreply.parent⟩

/-- A table with no record in use but the parent's is the empty map. -/
theorem Represents.empty (hzero : (l[0]?).map DirEntry.inUse = some true)
    (hfree : ∀ j e, 1 ≤ j → l[j]? = some e → e.inUse = false) : Represents l fun _ => none where
  parent := Option.map_eq_some_iff.mp hzero
  named := by
    intro j e hj he hu
    rw [hfree j e hj he] at hu
    cases hu
  apart := by
    intro n j k e e' hj _ he _ hn _
    rw [hasKey_free (hfree j e hj he)] at hn
    cases hn
  bound := by
    intro n
    have hnone : find hasKey 1 l n = none := by
      rw [find_eq_none, search_eq_none]
      exact fun j hj e he => hasKey_free (hfree j e hj he) n
    rw [hnone]
    rfl

/-- The stack holds what a record in use with the name `"a"` has behind its sector number. -/
def recordEnv : Env := ⟨fun _ => true, fun _ i => if i = 4 then 97 else if i = 5 then 0 else 1, false⟩

/-- The root directory of a formatted device, with such a record for its parent. -/
def newRoot : DirState := ⟨rootOpen recordEnv, {1, 0}⟩

def nameA : CName := ⟨[97], by decide⟩

/-- The state after `"a"` has been added to it. -/
def namedRoot : World := endOf recordEnv newRoot.world (dirAdd ⟨3, 20⟩ [97] 5 false)

/-- What is returned, and what the records are. -/
theorem newRoot_answers :
    (runArray (do filesysInit true; dirOpenRoot) recordEnv (newMachine 16)).1 = .ok (some ⟨3, 20⟩) ∧
    ((entries newRoot.world 1)[0]?).map DirEntry.inUse = some true ∧
    (entries newRoot.world 1).length = 16 ∧
    (∀ j < 16, 1 ≤ j → ((entries newRoot.world 1)[j]?).map DirEntry.inUse = some false) ∧
    newRoot.world.mem.next ≤ 4 ∧
    (∀ q < 4, (newRoot.world.mem.heap q).all (fun i => decide (i.denyWriteCnt = 0)) = true) ∧
    (runArray (dirAdd ⟨3, 20⟩ [97] 5 false) recordEnv newRoot.world).1 = .ok true ∧
    (runArray (dirAdd ⟨3, 20⟩ [97] 5 false) recordEnv newRoot.world).2.1.failed = false ∧
    ∀ j < 2, ((entries namedRoot 1)[j]?).map (fun e => (e.inUse, e.name)) = some (true, [97]) := by
  decide +kernel

theorem newRoot_open : DirOpen {1, 0} newRoot.world 3 1 := by
  have hwp : wp .memory (do filesysInit true; dirOpenRoot)
      (fun r w' => ∃ q, r = some ⟨q, 20⟩ ∧ DirOpen {1, 0} w' q 1) (fun _ _ => True) (newMachine 16) := by
    rw [wp_bind]
    refine wp_mono_ret (wp_filesysInit_format Policy.memory_noFail (newMachine_blank (by decide) (by decide)))
      fun _ w₁ hf => ?_
    exact wp_dirOpenRoot Policy.memory_noFail hf fun q w' hd => ⟨q, rfl, hd⟩
  have hrun : Runs .memory (do filesysInit true; dirOpenRoot) (newMachine 16) (.ok (some ⟨3, 20⟩)) newRoot.world := by
    rw [← newRoot_answers.1]
    exact runs_runArray _ ⟨fun _ => rfl, fun _ => trivial⟩ fun _ => trivial
  obtain ⟨q, hq, hdir⟩ := wp_iff_runs.mp hwp _ _ hrun
  obtain rfl : 3 = q := congrArg Dir.inode (Option.some.inj hq)
  exact hdir

theorem newRoot_isMap : IsMap 1 newRoot fun _ => none where
  ok := newRoot_open.dirOk
  allows := by
    obtain ⟨_, _, _, _, hnext, hdeny, _⟩ := newRoot_answers
    intro q i hi
    have hq : q < 4 := by
      by_contra hge
      rw [newRoot_open.ok.mem.fresh q (by omega)] at hi
      cases hi
    have hall := hdeny q hq
    rw [hi] at hall
    exact of_decide_eq_true hall
  table := by
    obtain ⟨_, hzero, hlen, hfree, _⟩ := newRoot_answers
    refine .empty hzero fun j e hj he => ?_
    obtain ⟨hlt, _⟩ := List.getElem?_eq_some_iff.mp he
    have hj16 := hfree j (by rw [← hlen]; exact hlt) hj
    rw [he] at hj16
    exact Option.some.inj hj16

theorem newRoot_step : NameStep 1 newRoot (.add nameA 5 false) ⟨namedRoot, surviving {1, 0} namedRoot⟩ := by
  obtain ⟨_, _, _, _, _, _, hok, hspace, _⟩ := newRoot_answers
  have hrun := runs_runArray (P := .space) (dirAdd ⟨3, 20⟩ [97] 5 false) (e := recordEnv) (w := newRoot.world)
    ⟨fun _ => rfl, fun _ => trivial⟩ (by simp [hspace])
  rw [hok] at hrun
  exact .call newRoot_open.holds ⟨by decide, by decide, by decide, by simp⟩ hrun

end Pintos.Filesys
