import Pintos.Threads.SwitchRuns

/-!
# Address spaces and kernel stacks

What the processor is told of the running thread: `process_activate` in `thread_schedule_tail` and in `load`, and the end
of `process_exit`, with a switch to other threads possible between any two of its statements.

* `Spaces` says whose page directories there are, and which one is active.
* `address_spaces`: the active page directory has not been destroyed, and no page is freed twice.
-/

namespace Pintos.Threads.Switch

open StackMachine StackMachine.Reg

/-- The thread `t` has the page directory `pd`, or is about to destroy it. -/
def Kernel.Holds (s : Kernel) (t pd : ℕ) : Prop :=
  s.pagedir t = some pd ∨ s.stage t = .dropped pd ∨ s.stage t = .deactivated pd

/-- What `cr3` is. -/
def Active (cr3 base : ℕ) (pagedir : Option ℕ) : Stage → Prop
  | .outside => cr3 = pagedir.getD base
  | .loading => cr3 = base ∨ cr3 = pagedir.getD base
  | .dropped pd => cr3 = pd ∨ cr3 = base
  | .deactivated _ => cr3 = base

/-- The page directories, and their owners. -/
structure Owned (s : Kernel) : Prop where
  base : s.initPageDir ∉ s.dirs
  held : ∀ t ∈ s.threads, ∀ pd, s.Holds t pd → pd ∈ s.dirs
  sole : ∀ t ∈ s.threads, ∀ u ∈ s.threads, ∀ pd, s.Holds t pd → s.Holds u pd → t = u
  gone : ∀ t ∈ s.threads, ∀ pd, s.stage t = .dropped pd ∨ s.stage t = .deactivated pd → s.pagedir t = none

structure Spaces (s : Kernel) : Prop extends Owned s where
  esp0 : s.esp0 = s.current + pgsize
  active : Active s.cr3 s.initPageDir (s.pagedir s.current) (s.stage s.current)

variable {L : Layout} {s s' : Kernel} {a : Coroutines ℕ Cont} {t pd : ℕ} {rest : List ℕ} {c : Cpu}

/-- What `process_activate` does is right, however far the thread is. -/
theorem Owned.active (h : Owned s) (ht : t ∈ s.threads) :
    Active ((s.pagedir t).getD s.initPageDir) s.initPageDir (s.pagedir t) (s.stage t) := by
  cases hst : s.stage t with
  | outside => rfl
  | loading => exact .inr rfl
  | dropped pd => exact .inr (by rw [h.gone t ht pd (.inl hst)]; rfl)
  | deactivated pd =>
    show (s.pagedir t).getD s.initPageDir = s.initPageDir
    rw [h.gone t ht pd (.inr hst)]
    rfl

/-- Of the threads there may be fewer. -/
theorem Owned.of_subset (h : Owned s) (hthreads : s'.threads ⊆ s.threads) (hpagedir : s'.pagedir = s.pagedir)
    (hstage : s'.stage = s.stage) (hdirs : s'.dirs = s.dirs) (hbase : s'.initPageDir = s.initPageDir) : Owned s' := by
  have hholds : ∀ t pd, s'.Holds t pd → s.Holds t pd := by
    intro t pd ht
    unfold Kernel.Holds at *
    rwa [hpagedir, hstage] at ht
  refine ⟨by rw [hbase, hdirs]; exact h.base, fun t ht pd hpd => ?_, fun t ht u hu pd hpd hpd' => ?_, fun t ht pd hst => ?_⟩
  · rw [hdirs]
    exact h.held t (hthreads ht) pd (hholds t pd hpd)
  · exact h.sole t (hthreads ht) u (hthreads hu) pd (hholds t pd hpd) (hholds u pd hpd')
  · rw [hstage] at hst
    rw [hpagedir]
    exact h.gone t (hthreads ht) pd hst

/-- What says nothing of address spaces. -/
theorem Spaces.of_eq (h : Spaces s) (hcurrent : s'.current = s.current) (hthreads : s'.threads = s.threads)
    (hpagedir : s'.pagedir = s.pagedir) (hstage : s'.stage = s.stage) (hdirs : s'.dirs = s.dirs)
    (hbase : s'.initPageDir = s.initPageDir) (hcr3 : s'.cr3 = s.cr3) (hesp0 : s'.esp0 = s.esp0) : Spaces s' where
  toOwned := h.toOwned.of_subset hthreads.subset hpagedir hstage hdirs hbase
  esp0 := by rw [hesp0, hcurrent, h.esp0]
  active := by
    rw [hcr3, hbase, hpagedir, hstage, hcurrent]
    exact h.active

/-- Behind `thread_schedule_tail`. -/
theorem Owned.settled (h : Owned s) (hcur : s.current ∈ s.threads) : Spaces s.settled where
  toOwned := h.of_subset subset_rfl rfl rfl rfl rfl
  esp0 := rfl
  active := h.active hcur

theorem arrived_spaces (h : Owned s) {next : ℕ} (hcur : runningThread c = next) (hnext : next ∈ s.threads) :
    Spaces (arrived s rest c) := by
  have howned : Owned (arrived s rest c) := h.of_subset (fun t ht => of_mem_arrived ht) rfl rfl rfl rfl
  have hcurrent : (arrived s rest c).current = next := hcur
  refine ⟨howned, rfl, ?_⟩
  rw [hcurrent]
  have hcr3 : (arrived s rest c).cr3 = (s.pagedir next).getD s.initPageDir := by
    rw [← hcur]
    rfl
  rw [hcr3]
  exact h.active hnext

/-- What concerns one thread only. -/
theorem Owned.change (h : Owned s) (t : ℕ) (hthreads : ∀ u ∈ s'.threads, u ≠ t → u ∈ s.threads)
    (hbase : s'.initPageDir ∉ s'.dirs) (hothers : ∀ u, u ≠ t → s'.pagedir u = s.pagedir u ∧ s'.stage u = s.stage u)
    (hdirs : ∀ u ∈ s.threads, u ≠ t → ∀ pd, s.Holds u pd → pd ∈ s'.dirs)
    (hnew : ∀ pd, s'.Holds t pd → pd ∈ s'.dirs ∧ ∀ u ∈ s.threads, u ≠ t → ¬s.Holds u pd)
    (hgone : ∀ pd, s'.stage t = .dropped pd ∨ s'.stage t = .deactivated pd → s'.pagedir t = none) : Owned s' := by
  have hholds : ∀ u, u ≠ t → ∀ pd, s'.Holds u pd → s.Holds u pd := by
    intro u hu pd hpd
    unfold Kernel.Holds at *
    rwa [(hothers u hu).1, (hothers u hu).2] at hpd
  refine ⟨hbase, fun u hu pd hpd => ?_, fun u hu v hv pd hpd hpd' => ?_, fun u hu pd hst => ?_⟩
  · by_cases hut : u = t
    · exact (hnew pd (hut ▸ hpd)).1
    · exact hdirs u (hthreads u hu hut) hut pd (hholds u hut pd hpd)
  · by_cases hut : u = t
    · by_cases hvt : v = t
      · rw [hut, hvt]
      · exact absurd (hholds v hvt pd hpd') ((hnew pd (hut ▸ hpd)).2 v (hthreads v hv hvt) hvt)
    · by_cases hvt : v = t
      · exact absurd (hholds u hut pd hpd) ((hnew pd (hvt ▸ hpd')).2 u (hthreads u hu hut) hut)
      · exact h.sole u (hthreads u hu hut) v (hthreads v hv hvt) pd (hholds u hut pd hpd) (hholds v hvt pd hpd')
  · by_cases hut : u = t
    · subst hut
      exact hgone pd hst
    · rw [(hothers u hut).2] at hst
      rw [(hothers u hut).1]
      exact h.gone u (hthreads u hu hut) pd hst

/-! ## One step -/

theorem Leaving.schedule_spaces (h : Leaving L s a) (ho : Owned s) {ret : ℕ} (hroom : Roomy L s.cpu)
    (hret : ret ≠ L.switchEntry) :
    (s.schedule L ret).failure = s.failure ∧ Spaces (s.schedule L ret) ∨
      (s.schedule L ret).failure = some .noThread ∧ (s.schedule L ret).idleThread = none := by
  cases hnext : s.nextThreadToRun with
  | none =>
    right
    rw [Kernel.schedule, hnext]
    refine ⟨rfl, ?_⟩
    show s.idleThread = none
    unfold Kernel.nextThreadToRun at hnext
    split at hnext
    · exact Option.map_eq_none_iff.mp hnext
    · cases hnext
  | some p =>
    left
    obtain ⟨next, rest⟩ := p
    by_cases hne : next = s.current
    · subst hne
      rw [(h.stays hnext).1]
      exact ⟨rfl, Owned.settled (ho.of_subset subset_rfl rfl rfl rfl rfl) h.isThread⟩
    · obtain ⟨a', c', _, hsettled, heq⟩ := h.switches hroom hret hnext hne
      rw [heq] at hsettled ⊢
      exact ⟨rfl, arrived_spaces ho rfl (of_mem_arrived hsettled.isThread)⟩

/-- The run queue and the status of a thread are nothing to address spaces. -/
theorem Spaces.threadUnblock (h : Spaces s) (i : ℕ) (hf : (s.threadUnblock t i).failure = none) :
    Spaces (s.threadUnblock t i) := by
  unfold Kernel.threadUnblock at hf ⊢
  split
  · next hout =>
    rw [if_pos hout] at hf
    cases hf
  · next hthread =>
    rw [if_neg hthread] at hf
    split
    · next hblocked =>
      rw [if_pos hblocked] at hf
      cases hf
    · exact h.of_eq rfl rfl rfl rfl rfl rfl rfl rfl

theorem Spaces.newThread (h : Spaces s) (hcur : s.current ∈ s.threads) (hfree : s.Free t) (function aux : ℕ) :
    Spaces (s.newThread L t function aux) := by
  have hcurrent : (s.newThread L t function aux).current = s.current := newThread_current
  have htc : s.current ≠ t := fun heq => hfree.2.2.1 (heq ▸ hcur)
  have hothers : ∀ u, u ≠ t → (s.newThread L t function aux).pagedir u = s.pagedir u ∧
      (s.newThread L t function aux).stage u = s.stage u :=
    fun u hu => ⟨Function.update_of_ne hu .., Function.update_of_ne hu ..⟩
  have hpagedir : (s.newThread L t function aux).pagedir t = none := Function.update_self ..
  have hstage : (s.newThread L t function aux).stage t = .outside := Function.update_self ..
  refine ⟨?_, ?_, ?_⟩
  · refine h.change t (fun u hu hut => ?_) h.base hothers (fun u hu _ => h.held u hu) (fun pd hpd => ?_) (fun pd _ => hpagedir)
    · exact (Finset.mem_insert.mp hu).resolve_left hut
    · unfold Kernel.Holds at hpd
      rw [hpagedir, hstage] at hpd
      simp at hpd
  · rw [hcurrent]
    exact h.esp0
  · rw [hcurrent, (hothers _ htc).1, (hothers _ htc).2]
    exact h.active

theorem Spaces.createPagedir (h : Spaces s) (hfree : s.Free pd) (hstage : s.stage s.current = .outside)
    (hpd : s.pagedir s.current = none) : Spaces (s.createPagedir pd) := by
  have hpagedir : (s.createPagedir pd).pagedir s.current = some pd := Function.update_self ..
  have hloading : (s.createPagedir pd).stage s.current = .loading := Function.update_self ..
  obtain ⟨_, _, _, hfresh, hbase⟩ := hfree
  refine ⟨h.change s.current (fun u hu _ => hu) ?_ ?_ ?_ ?_ ?_, h.esp0, ?_⟩
  · show s.initPageDir ∉ insert pd s.dirs
    simp [hbase.symm, h.base]
  · exact fun u hu => ⟨Function.update_of_ne hu .., Function.update_of_ne hu ..⟩
  · exact fun u hu _ pd' hpd' => Finset.mem_insert_of_mem (h.held u hu pd' hpd')
  · intro pd' hpd'
    unfold Kernel.Holds at hpd'
    rw [hpagedir, hloading] at hpd'
    obtain rfl : pd = pd' := by simpa using hpd'
    exact ⟨Finset.mem_insert_self .., fun u hu _ hholds => hfresh (h.held u hu pd hholds)⟩
  · intro pd' hst
    rw [hloading] at hst
    simp at hst
  · have hactive := h.active
    rw [hstage, hpd] at hactive
    show Active s.cr3 s.initPageDir ((s.createPagedir pd).pagedir s.current) ((s.createPagedir pd).stage s.current)
    rw [hloading]
    exact .inl hactive

/-- The running thread goes on in `load` or `process_exit`, with the page directory that it has. -/
theorem Spaces.stage (h : Spaces s) (hcur : s.current ∈ s.threads) (hthreads : s'.threads = s.threads)
    (hdirs : s'.dirs = s.dirs) (hbase : s'.initPageDir = s.initPageDir) (hesp0 : s'.esp0 = s.current + pgsize)
    (hcurrent : s'.current = s.current)
    (hothers : ∀ u, u ≠ s.current → s'.pagedir u = s.pagedir u ∧ s'.stage u = s.stage u)
    (hholds : ∀ pd, s'.Holds s.current pd → s.Holds s.current pd)
    (hgone : ∀ pd, s'.stage s.current = .dropped pd ∨ s'.stage s.current = .deactivated pd → s'.pagedir s.current = none)
    (hactive : Active s'.cr3 s.initPageDir (s'.pagedir s.current) (s'.stage s.current)) : Spaces s' := by
  refine ⟨h.change s.current (fun u hu _ => hthreads ▸ hu) ?_ hothers (fun u hu _ pd hpd => ?_) (fun pd hpd => ?_) hgone,
    ?_, ?_⟩
  · rw [hbase, hdirs]
    exact h.base
  · rw [hdirs]
    exact h.held u hu pd hpd
  · rw [hdirs]
    refine ⟨h.held _ hcur pd (hholds pd hpd), fun u hu hne hu' => ?_⟩
    exact hne (h.sole u hu _ hcur pd hu' (hholds pd hpd))
  · rw [hesp0, hcurrent]
  · rw [hbase, hcurrent]
    exact hactive

theorem Spaces.activate (h : Spaces s) (hcur : s.current ∈ s.threads) : Spaces s.activate := by
  have hstage : s.activate.stage s.current = .outside := Function.update_self ..
  refine h.stage hcur rfl rfl rfl rfl rfl (fun u hu => ⟨rfl, Function.update_of_ne hu ..⟩) (fun pd hpd => ?_)
    (fun pd hst => ?_) ?_
  · unfold Kernel.Holds at hpd
    rw [hstage] at hpd
    have hsame : s.activate.pagedir s.current = some pd := by simpa using hpd
    exact .inl hsame
  · rw [hstage] at hst
    simp at hst
  · rw [hstage]
    rfl

theorem Spaces.dropPagedir (h : Spaces s) (hcur : s.current ∈ s.threads) (hstage : s.stage s.current = .outside)
    (hpd : s.pagedir s.current = some pd) : Spaces (s.dropPagedir pd) := by
  have hnone : (s.dropPagedir pd).pagedir s.current = none := Function.update_self ..
  have hdropped : (s.dropPagedir pd).stage s.current = .dropped pd := Function.update_self ..
  refine h.stage hcur rfl rfl rfl h.esp0 rfl (fun u hu => ⟨Function.update_of_ne hu .., Function.update_of_ne hu ..⟩)
    (fun pd' hpd' => ?_) (fun _ _ => hnone) ?_
  · unfold Kernel.Holds at hpd'
    rw [hnone, hdropped] at hpd'
    obtain rfl : pd = pd' := by simpa using hpd'
    exact .inl hpd
  · have hactive := h.active
    rw [hstage, hpd] at hactive
    rw [hdropped]
    exact .inl hactive

theorem Spaces.activateBase (h : Spaces s) (hcur : s.current ∈ s.threads) (hstage : s.stage s.current = .dropped pd) :
    Spaces (s.activateBase pd) := by
  have hbased : (s.activateBase pd).stage s.current = .deactivated pd := Function.update_self ..
  refine h.stage hcur rfl rfl rfl h.esp0 rfl (fun u hu => ⟨rfl, Function.update_of_ne hu ..⟩) (fun pd' hpd' => ?_)
    (fun _ _ => h.gone _ hcur pd (.inl hstage)) ?_
  · unfold Kernel.Holds at hpd'
    rw [hbased] at hpd'
    rcases hpd' with hpd' | hpd' | hpd'
    · exact .inl hpd'
    · cases hpd'
    · cases hpd'
      exact .inr (.inl hstage)
  · rw [hbased]
    rfl

theorem Spaces.destroyPagedir (h : Spaces s) (hcur : s.current ∈ s.threads) (hstage : s.stage s.current = .deactivated pd) :
    (s.destroyPagedir pd).failure = s.failure ∧ Spaces (s.destroyPagedir pd) := by
  have hholds : s.Holds s.current pd := .inr (.inr hstage)
  have hmem : pd ∈ s.dirs := h.held _ hcur pd hholds
  have hne : pd ≠ s.initPageDir := fun heq => h.base (heq ▸ hmem)
  have hnone : s.pagedir s.current = none := h.gone _ hcur pd (.inr hstage)
  have heq : s.destroyPagedir pd =
      { s with dirs := s.dirs.erase pd, stage := Function.update s.stage s.current .outside } := by
    rw [Kernel.destroyPagedir, if_neg hne, if_neg (not_not.mpr hmem)]
  have hout : Function.update s.stage s.current .outside s.current = .outside := Function.update_self ..
  rw [heq]
  refine ⟨rfl, h.change s.current (fun u hu _ => hu) ?_ ?_ ?_ ?_ ?_, h.esp0, ?_⟩
  · exact fun hin => h.base (Finset.mem_of_mem_erase hin)
  · exact fun u hu => ⟨rfl, Function.update_of_ne hu ..⟩
  · intro u hu hut pd' hpd'
    refine Finset.mem_erase.mpr ⟨?_, h.held u hu pd' hpd'⟩
    rintro rfl
    exact hut (h.sole u hu _ hcur pd' hpd' hholds)
  · intro pd' hpd'
    unfold Kernel.Holds at hpd'
    simp only [hnone, hout] at hpd'
    simp at hpd'
  · intro _ _
    exact hnone
  · have hactive := h.active
    rw [hstage] at hactive
    show Active s.cr3 s.initPageDir (s.pagedir s.current) (Function.update s.stage s.current .outside s.current)
    rw [hout, hnone]
    exact hactive

/-- The failures that there are: those of callers of `thread_unblock`, and a first thread that blocks too early. -/
def Explained (s : Kernel) : Prop :=
  s.failure = some .notAThread ∨ s.failure = some .notBlocked ∨ s.failure = some .noThread ∧ s.idleThread = none

theorem threadUnblock_explained (s : Kernel) (t i : ℕ) :
    (s.threadUnblock t i).failure = s.failure ∨ Explained (s.threadUnblock t i) := by
  unfold Kernel.threadUnblock
  split_ifs
  · exact .inr (.inr (.inl rfl))
  · exact .inl rfl
  · exact .inr (.inl rfl)

theorem Owned.setStatus (h : Owned s) (t : ℕ) (st : Status) : Owned (s.setStatus t st) :=
  h.of_subset subset_rfl rfl rfl rfl rfl

theorem Spaces.step {e : Event} (h : Spaces s) (hs : Settled L s a) (hf : s.failure = none) (hstep : Step L s e s') :
    s'.failure = none ∧ Spaces s' ∨ Explained s' := by
  have hcur := hs.isThread
  -- what `schedule` does, from the state in which it is called
  have hschedule : ∀ {s₁ : Kernel} {ret : ℕ}, Leaving L s₁ a → Owned s₁ → s₁.failure = none → Roomy L s₁.cpu →
      ret ≠ L.switchEntry → (s₁.schedule L ret).failure = none ∧ Spaces (s₁.schedule L ret) ∨
        Explained (s₁.schedule L ret) := by
    intro s₁ ret hleaving ho hf₁ hroom hret
    rcases hleaving.schedule_spaces ho hroom hret with ⟨hsame, hspaces⟩ | hfail
    · exact .inl ⟨hsame.trans hf₁, hspaces⟩
    · exact .inr (.inr (.inr hfail))
  cases hstep with
  | work c hstack hspares => exact .inl ⟨hf, h.of_eq hstack rfl rfl rfl rfl rfl rfl rfl⟩
  | create t function aux i hfree =>
    rcases threadUnblock_explained (s.newThread L t function aux) t i with hsame | hfail
    · exact .inl ⟨hsame.trans hf, (h.newThread hcur hfree function aux).threadUnblock i (hsame.trans hf)⟩
    · exact .inr hfail
  | unblock t i =>
    rcases threadUnblock_explained s t i with hsame | hfail
    · exact .inl ⟨hsame.trans hf, h.threadUnblock i (hsame.trans hf)⟩
    · exact .inr hfail
  | block ret hroom hret => exact hschedule hs.block (h.setStatus _ _) hf hroom hret
  | yield ret i hroom hret =>
    have hsame : (s.readyCurrent i).failure = s.failure ∧ (s.readyCurrent i).cpu = s.cpu ∧ Owned (s.readyCurrent i) := by
      unfold Kernel.readyCurrent
      split
      · exact ⟨rfl, rfl, h.of_subset subset_rfl rfl rfl rfl rfl⟩
      · exact ⟨rfl, rfl, h.setStatus _ _⟩
    obtain ⟨hfailure, hcpu, ho⟩ := hsame
    exact hschedule (hs.yield i) ho (hfailure.trans hf) (hcpu.symm ▸ hroom) hret
  | exit ret hroom hret hidle hstage hpd => exact hschedule (hs.exit hidle) (h.setStatus _ _) hf hroom hret
  | idle hnone => exact .inl ⟨hf, h.of_eq rfl rfl rfl rfl rfl rfl rfl rfl⟩
  | createPagedir pd hfree hstage hpd => exact .inl ⟨hf, h.createPagedir hfree hstage hpd⟩
  | activate hstage => exact .inl ⟨hf, h.activate hcur⟩
  | dropPagedir pd hstage hpd => exact .inl ⟨hf, h.dropPagedir hcur hstage hpd⟩
  | activateBase pd hstage => exact .inl ⟨hf, h.activateBase hcur hstage⟩
  | destroyPagedir pd hstage =>
    obtain ⟨hsame, hspaces⟩ := h.destroyPagedir hcur hstage
    exact .inl ⟨hsame.trans hf, hspaces⟩

/-! ## Runs -/

theorem booted_spaces (c : Cpu) (initPageDir : ℕ) : Spaces (booted c initPageDir) where
  base := Finset.notMem_empty _
  held t _ pd hpd := by simp [Kernel.Holds, booted] at hpd
  sole t _ u _ pd hpd := by simp [Kernel.Holds, booted] at hpd
  gone t _ pd hst := by simp [booted] at hst
  esp0 := rfl
  active := rfl

variable {ls : List (Event × Coroutines.Move ℕ Cont)}

theorem Spaces.run (h : Spaces s) (hs : Settled L s a) (hf : s.failure = none) (hrun : Trace (Kernel.Step L) s ls s') :
    (s'.failure = none ∧ Spaces s' ∧ ∃ a', Settled L s' a') ∨ Explained s' := by
  induction hrun generalizing a with
  | nil s => exact .inl ⟨hf, h, a, hs⟩
  | cons head tail ih =>
    obtain ⟨_, hstep, _⟩ := head
    obtain ⟨a₁, _, hsettled⟩ := hs.step hstep
    rcases h.step hs hf hstep with ⟨hf₁, hspaces⟩ | hfail
    · exact ih hspaces (hsettled hf₁) hf₁
    · right
      cases tail with
      | nil s => exact hfail
      | cons head' tail' =>
        have hnone := head'.1
        rcases hfail with heq | heq | ⟨heq, _⟩ <;> exact absurd (hnone.symm.trans heq) (by simp)

/-- What the processor is told of the running thread. -/
structure Told (s : Kernel) : Prop where
  /-- The kernel stack for the next interrupt in user mode. -/
  stack : s.esp0 = s.current + pgsize
  /-- The active page directory is there. -/
  exists_dir : s.cr3 = s.initPageDir ∨ s.cr3 ∈ s.dirs
  /-- It is that of the running thread, unless `load` or `process_exit` is about to change it. -/
  own : s.stage s.current = .outside → s.cr3 = (s.pagedir s.current).getD s.initPageDir
  /-- Nobody else has it. -/
  sole : ∀ t ∈ s.threads, ∀ pd, s.pagedir t = some pd → s.cr3 = pd → t = s.current
  /-- The running thread and those in the run queue have not been destroyed. -/
  lives : s.current ∈ s.threads ∧ ∀ t ∈ s.readyList, t ∈ s.threads

theorem Spaces.told (h : Spaces s) (hs : Settled L s a) : Told s where
  stack := h.esp0
  exists_dir := by
    have hactive := h.active
    have hheld := h.held _ hs.isThread
    have hgetD : (s.pagedir s.current).getD s.initPageDir = s.initPageDir ∨
        (s.pagedir s.current).getD s.initPageDir ∈ s.dirs := by
      cases hpd : s.pagedir s.current with
      | none => exact .inl rfl
      | some pd => exact .inr (hheld pd (.inl hpd))
    cases hst : s.stage s.current with
    | outside =>
      rw [hst] at hactive
      exact hactive.symm ▸ hgetD
    | loading =>
      rw [hst] at hactive
      rcases hactive with hbase | hown
      · exact .inl hbase
      · exact hown.symm ▸ hgetD
    | dropped pd =>
      rw [hst] at hactive
      rcases hactive with hown | hbase
      · exact .inr (hown.symm ▸ hheld pd (.inr (.inl hst)))
      · exact .inl hbase
    | deactivated pd =>
      rw [hst] at hactive
      exact .inl hactive
  own hst := by
    have hactive := h.active
    rw [hst] at hactive
    exact hactive
  sole t ht pd hpd hcr3 := by
    have hmem : pd ∈ s.dirs := h.held t ht pd (.inl hpd)
    have hne : s.cr3 ≠ s.initPageDir := fun heq => h.base (heq ▸ hcr3 ▸ hmem)
    have hactive := h.active
    refine h.sole t ht _ hs.isThread pd (.inl hpd) ?_
    have hgetD : s.cr3 = (s.pagedir s.current).getD s.initPageDir → s.Holds s.current pd := by
      intro hown
      cases hpd' : s.pagedir s.current with
      | none =>
        rw [hpd'] at hown
        exact absurd hown hne
      | some pd' =>
        rw [hpd', hcr3] at hown
        exact .inl (hpd'.trans (congrArg some hown.symm))
    cases hst : s.stage s.current with
    | outside =>
      rw [hst] at hactive
      exact hgetD hactive
    | loading =>
      rw [hst] at hactive
      exact hgetD (hactive.resolve_left hne)
    | dropped pd' =>
      rw [hst] at hactive
      have heq := hactive.resolve_right hne
      exact .inr (.inl (hst.trans (congrArg Stage.dropped (heq.symm.trans hcr3))))
    | deactivated pd' =>
      rw [hst] at hactive
      exact absurd hactive hne
  lives := by
    refine ⟨hs.isThread, fun t ht => ?_⟩
    obtain ⟨k, hk⟩ := Option.isSome_iff_exists.mp (hs.ready t ht).1
    exact (hs.saved t k hk).1

end Pintos.Threads.Switch
