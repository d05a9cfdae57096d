import Xdpacket.Proofs.Attached

namespace Xdpacket

variable {E : Fault → Prop} {w v : World} {live : Multiset Ref} {env : Env} {a : Addr} {n : Text}

/-- Nothing is left behind: the same descriptors are open and the same ifaces stored. -/
structure Restored (w v : World) : Prop where
  openFds : ∀ fd, fd ∈ v.openFds ↔ fd ∈ w.openFds
  ifaceJS : v.ifaceJS = w.ifaceJS
  ifaces : v.ifaces = w.ifaces

/-- What is expected of `iface_new`: no null member is followed, and where it answers null
nothing is left behind. -/
def CleansUp (env : Env) (name : Option Text) (w : World) : Prop :=
  Runs (fun _ => False) (ifaceNewNamed env name) w (fun r v => r = none → Restored w v)

/-- The failures after which the cleanup does no harm. -/
inductive SafeCleanup (env : Env) (w : World) : Option Text → Prop where
  | unnamed : SafeCleanup env w none
  | taken (n : Text) (h : AList.lookup n w.ifaceJS ≠ none) : SafeCleanup env w (some n)
  | starved (n : Text) (h : w.oom.headD false = true) : SafeCleanup env w (some n)
  /-- The socket is tried, so the descriptor is no longer the zero of `calloc`. -/
  | built (n : Text) (copied : env.nstralloc n MAXLINELEN = .copy) (memory : Granted 5 w.oom) :
      SafeCleanup env w (some n)
  /-- Descriptor 0 is closed, which is not open. -/
  | early (n : Text) (named : (∃ copy, env.nstralloc n MAXLINELEN = .truncated copy) ∨
        env.nstralloc n MAXLINELEN = .copy) (memory : Granted 2 w.oom)
      (silent : env.warns = false) (closed : 0 ∉ w.openFds) : SafeCleanup env w (some n)

theorem Idle.restored (h : Idle w v) (ho : v.openFds = w.openFds) : Restored w v where
  openFds := by simp [ho]
  ifaceJS := h.ifaceJS
  ifaces := h.ifaces

/-- Before `socket` the descriptor is the zero of `calloc`, so the cleanup closes descriptor 0
and prints a hardware address that is not there. -/
theorem ifaceDie_early {copy msg : Text} (hc : Consistent w live) (hu : Unborn w v a)
    (ho : v.openFds = w.openFds) :
    Runs (fun _ => False) (ifaceDie env a ⟨0, some copy, false, 0⟩ msg) v
        (fun r u => r = none → Restored w u) ↔ env.warns = false ∧ 0 ∉ w.openFds := by
  have hneeds : Needs _ _ (ifaceDie env a ⟨0, some copy, false, 0⟩ msg) v _ :=
    ifaceDie_needs hc hu rfl
  cases hr : ifaceDie env a ⟨0, some copy, false, 0⟩ msg v with
  | error e =>
    have hp := (hneeds.fault hr).2
    refine iff_of_false (fun h => h.fault hr) (fun h => hp ?_)
    simp [h.1]
  | ok p =>
    obtain ⟨r, u⟩ := p
    obtain ⟨hp, rfl, hi, hfds⟩ := hneeds.ok hr
    have hwarns : env.warns = false := by simpa using hp.2
    have hclosed : u.openFds = w.openFds.filter (fun fd : Nat => (fd : Int) ≠ 0) := by
      rw [hfds, ← ho]
      rfl
    rw [and_iff_right hwarns]
    constructor
    · intro h hopen
      have hgone := ((h.ok hr rfl).openFds 0).mpr hopen
      rw [hclosed] at hgone
      simpa using (List.mem_filter.mp hgone).2
    · intro hopen
      refine Runs.of_ok hr (fun _ => hi.restored ?_)
      rw [hclosed]
      refine List.filter_eq_self.mpr (fun fd hfd => decide_eq_true ?_)
      have hne : fd ≠ 0 := fun he => hopen (he ▸ hfd)
      omega

/-- Without a copy of its name the object is looked up by a null name. -/
theorem ifaceDie_unnamed {msg : Text} {Q : Option Addr → World → Prop} :
    ¬ Runs (fun _ => False) (ifaceDie env a ⟨0, none, false, 0⟩ msg) v Q := by
  intro h
  obtain ⟨r, u, hr, -⟩ := h.exists_ok
  have hneeds : Needs _ _ (ifaceDie env a ⟨0, none, false, 0⟩ msg) v _ := ifaceDie_closes rfl
  cases (hneeds.ok hr).1.1

/-- From `socket` on the cleanup closes what was opened. -/
theorem ifaceOpen_cleans (hc : Consistent w live) (hu : Unborn w v a)
    (ho : v.openFds = w.openFds) :
    Runs (fun _ => False) (ifaceOpen env a n) v (fun r u => r = none → Restored w u) := by
  refine (ifaceOpen_reverts hc hu ho).imp ?_
  intro r u hr hnone
  rcases hr with ⟨_, hi, hfds⟩ | ⟨hsome, _⟩
  · exact hi.restored hfds
  · rw [hnone] at hsome
    cases hsome

/-- What is left of the safe cases once there is an object. -/
theorem SafeCleanup.allocated (h : SafeCleanup env w (some n))
    (hl : AList.lookup n w.ifaceJS = none) (hm : w.oom.headD false = false) :
    (env.nstralloc n MAXLINELEN = .copy ∧ Granted 5 w.oom) ∨
      (((∃ copy, env.nstralloc n MAXLINELEN = .truncated copy) ∨
        env.nstralloc n MAXLINELEN = .copy) ∧ Granted 2 w.oom) ∧
          env.warns = false ∧ 0 ∉ w.openFds := by
  cases h with
  | taken _ h => exact absurd hl h
  | starved _ h =>
    rw [hm] at h
    cases h
  | built _ copied memory => exact .inl ⟨copied, memory⟩
  | early _ named memory silent closed => exact .inr ⟨⟨named, memory⟩, silent, closed⟩

theorem ifaceNew_cleans_iff (hc : Consistent w live) :
    CleansUp env (some n) w ↔ SafeCleanup env w (some n) := by
  unfold CleansUp ifaceNewNamed
  cases ifaceNew_run env n w with
  | taken b listed msg run =>
    refine iff_of_true (Runs.of_ok run (fun _ => ?_)) (.taken n (by simp [listed]))
    exact Idle.restored { Idle.refl w with next := Nat.le_refl _ } rfl
  | starved memory msg run =>
    refine iff_of_true (Runs.of_ok run (fun _ => ?_)) (.starved n memory)
    exact Idle.restored { Idle.refl w with next := Nat.le_refl _ } rfl
  | unnamed free memory copy msg oom run =>
    refine (Runs.of_run_eq run).trans (iff_of_false ifaceDie_unnamed ?_)
    intro hs
    rcases hs.allocated free memory with ⟨hcopy, hfive⟩ | ⟨⟨hnamed, htwo⟩, -⟩
    · have := copy.answer ((granted_add (j := 2) (k := 3)).mp hfive).1
      simp [hcopy] at this
    · have := copy.answer htwo
      rcases hnamed with ⟨cut, hcut⟩ | hcopy
      · simp [hcut] at this
      · simp [hcopy] at this
  | early free memory named name msg oom run =>
    refine (Runs.of_run_eq run).trans ((ifaceDie_early hc (unborn_drawn w oom) rfl).trans ?_)
    constructor
    · intro h
      exact .early n (named.imp_right And.left) memory h.1 h.2
    · intro hs
      rcases hs.allocated free (granted_succ.mp memory).1 with ⟨hcopy, hfive⟩ | ⟨-, h⟩
      · rcases named with ⟨cut, hcut⟩ | ⟨-, hno⟩
        · simp [hcopy] at hcut
        · exact absurd hfive hno
      · exact h
  | built free copied memory run =>
    refine (Runs.of_run_eq run).trans (iff_of_true ?_ (.built n copied memory))
    exact ifaceOpen_cleans hc (unborn_drawn w _) rfl

/-- `iface_new` cleans up what it made, and only that, exactly in these cases. -/
theorem iface_new_cleans_iff (h : Reachable env w) (name : Option Text) :
    CleansUp env name w ↔ SafeCleanup env w name := by
  obtain ⟨live, hc⟩ := h.consistent
  cases name with
  | none => exact iff_of_true (fun _ => ⟨fun _ => Iff.rfl, rfl, rfl⟩) .unnamed
  | some n => exact ifaceNew_cleans_iff hc

/-- A library that cuts long names. -/
def Env.cutting : Env :=
  { Env.sample with
    nstralloc := fun src max =>
      if src.toList.length < max then .copy
      else .truncated (String.ofList (src.toList.take (max - 1))) }

/-- Too long for an iface. -/
def longName : Text := "0123456789012345678901234567890123456789012345678901234567890123"

theorem iface_new_cleans_longName :
    CleansUp .cutting (some longName) (World.start [0, 1, 2] [] []) ↔
      SafeCleanup .cutting (World.start [0, 1, 2] [] []) (some longName) :=
  iface_new_cleans_iff (reachable_start [0, 1, 2] [] []) (some longName)

/-- A name that is too long closes the standard input. -/
theorem long_name_closes_stdin :
    ¬ ∀ (env : Env) (w : World) (name : Option Text), Reachable env w → CleansUp env name w := by
  intro h
  have hone := h .cutting _ (some longName) (reachable_start [0, 1, 2] [] [])
  have hrun : ifaceNewNamed .cutting (some longName) (World.start [0, 1, 2] [] []) =
      .ok (none, _) := rfl
  have hfd := ((hone.ok hrun rfl).openFds 0).mpr (by decide)
  exact absurd hfd (by decide)

end Xdpacket
