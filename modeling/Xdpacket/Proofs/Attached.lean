import Xdpacket.Proofs.Calls
import Xdpacket.Proofs.Histories
import Xdpacket.Proofs.Passing

namespace Xdpacket

variable {w v : World} {live : Multiset Ref} {env : Env} {a : Addr} {n : Text} {i : Iface}

section Sockets

/-- `socket` answers a descriptor that is not open. -/
theorem lowestFd_free (openFds : List Nat) : lowestFd openFds ∉ openFds := by
  unfold lowestFd
  cases hf : (List.range (openFds.length + 1)).find? (fun fd => fd ∉ openFds) with
  | some fd => simpa using List.find?_some hf
  | none =>
    have hsub : List.range (openFds.length + 1) ⊆ openFds := by
      intro fd hfd
      have := List.find?_eq_none.mp hf fd hfd
      simpa using this
    have hle := (List.nodup_range.subperm hsub).length_le
    rw [List.length_range] at hle
    omega

theorem close_free {fd : Nat} {openFds : List Nat} (h : fd ∉ openFds) :
    (fd :: openFds).filter (fun x : Nat => (x : Int) ≠ (fd : Int)) = openFds := by
  rw [List.filter_cons_of_neg (by simp)]
  apply List.filter_eq_self.mpr
  intro x hx
  have : x ≠ fd := fun he => h (he ▸ hx)
  exact decide_eq_true (by omega)

/-- The socket of an iface is open and polled. -/
def Serviced (w : World) (a : Addr) (i : Iface) : Prop :=
  ∃ fd : Nat, i.fd = fd ∧ fd ∈ w.openFds ∧ (fd, a) ∈ w.tracked

/-- Every iface is serviced, by a descriptor of its own, and could be added again. -/
structure Attached (env : Env) (w : World) : Prop where
  serviced : ∀ a i, w.ifaces a = some i → Serviced w a i
  own : ∀ a b i j, w.ifaces a = some i → w.ifaces b = some j → i.fd = j.fd → a = b
  named : ∀ a i, w.ifaces a = some i → env.nstralloc i.name MAXLINELEN = .copy

/-- Nothing that sockets are about has changed. -/
theorem Attached.of_same (h : Attached env w)
    (hi : SameKeys (fun i => (i.fd, i.name)) w.ifaces v.ifaces) (ho : v.openFds = w.openFds)
    (ht : v.tracked = w.tracked) : Attached env v := by
  have hback : ∀ a i, v.ifaces a = some i → ∃ j, w.ifaces a = some j ∧ i.fd = j.fd ∧ i.name = j.name := by
    intro a i ha
    obtain ⟨j, hj, hk⟩ := hi.evolves (a + 1) a (Nat.lt_succ_self a) i ha
    simp only [Prod.mk.injEq] at hk
    exact ⟨j, hj, hk⟩
  refine ⟨?_, ?_, ?_⟩
  · intro a i ha
    obtain ⟨j, hj, hfd, -⟩ := hback a i ha
    unfold Serviced
    rw [hfd, ho, ht]
    exact h.serviced a j hj
  · intro a b i j ha hb he
    obtain ⟨i', hi', hif, -⟩ := hback a i ha
    obtain ⟨j', hj', hjf, -⟩ := hback b j hb
    exact h.own a b i' j' hi' hj' (by rw [← hif, ← hjf, he])
  · intro a i ha
    obtain ⟨j, hj, -, hn⟩ := hback a i ha
    rw [hn]
    exact h.named a j hj

instance attached : Policy env (fun _ => True) (Attached env) where
  dangling := fun _ => trivial
  nullName := trivial
  nullMember := trivial
  beyond := fun h hb => h.of_same (by rw [hb.ifaces]; exact .refl _ _) hb.openFds hb.tracked
  forgetField := fun _ h => ⟨h.serviced, h.own, h.named⟩
  forgetMemref := fun _ h => ⟨h.serviced, h.own, h.named⟩
  forgetRule := fun _ h => ⟨h.serviced, h.own, h.named⟩
  makeField := fun _ h _ => ⟨h.serviced, h.own, h.named⟩
  makeMemref := fun _ h _ => ⟨h.serviced, h.own, h.named⟩
  makeRule := fun _ h _ => ⟨h.serviced, h.own, h.named⟩
  countField := fun _ h _ => ⟨h.serviced, h.own, h.named⟩
  countState := fun _ h _ _ => ⟨h.serviced, h.own, h.named⟩
  countRule := fun _ h _ => ⟨h.serviced, h.own, h.named⟩
  changeIface := fun h hi hf hn => h.of_same (.modify hi (by rw [hf, hn])) rfl rfl

/-- The only registration of a serviced iface. -/
theorem Attached.registered (h : Attached env w) (hc : Consistent w live)
    (hi : w.ifaces a = some i) {r : Nat × Addr} (hr : r ∈ w.tracked) :
    r.2 = a ↔ (r.1 : Int) = i.fd := by
  obtain ⟨j, hj⟩ := Option.isSome_iff_exists.mp (hc.tracked.2 r hr)
  obtain ⟨fd, hfd, -, ht⟩ := h.serviced r.2 j hj
  have he : r = (fd, r.2) := List.inj_on_of_nodup_map hc.tracked.1 hr ht rfl
  have hrj : (r.1 : Int) = j.fd := by
    rw [he, hfd]
  constructor
  · intro ha
    rw [ha, hi] at hj
    cases hj
    exact hrj
  · intro ha
    exact h.own r.2 a j i hj hi (by rw [← hrj, ha])

/-- The world without one iface: neither stored, nor open, nor polled. -/
def World.dropIface (w : World) (a : Addr) (i : Iface) : World :=
  { w with
    ifaceJS := w.ifaceJS.erase i.name
    ifaces := Function.update w.ifaces a none
    openFds := w.openFds.filter (fun fd : Nat => (fd : Int) ≠ i.fd)
    tracked := w.tracked.filter (fun r => (r.1 : Int) ≠ i.fd) }

theorem Attached.drop (h : Attached env w) (hi : w.ifaces a = some i) :
    Attached env (w.dropIface a i) := by
  have hother : ∀ b j, (w.dropIface a i).ifaces b = some j → b ≠ a ∧ w.ifaces b = some j := by
    intro b j hb
    rcases of_updated hb with ⟨-, hnone⟩ | hb
    · cases hnone
    · exact hb
  refine ⟨?_, ?_, ?_⟩
  · intro b j hb
    obtain ⟨hne, hj⟩ := hother b j hb
    obtain ⟨fd, hfd, ho, ht⟩ := h.serviced b j hj
    have hkeep : (fd : Int) ≠ i.fd := fun he => hne (h.own b a j i hj hi (by rw [hfd, he]))
    exact ⟨fd, hfd, List.mem_filter.mpr ⟨ho, decide_eq_true hkeep⟩,
      List.mem_filter.mpr ⟨ht, decide_eq_true hkeep⟩⟩
  · intro b c j k hb hc he
    exact h.own b c j k (hother b j hb).2 (hother c k hc).2 he
  · intro b j hb
    exact h.named b j (hother b j hb).2

/-- `iface_free` of a stored iface that nothing refers to. -/
theorem ifaceFreeAt_frees (hc : Consistent w live) (hi : w.ifaces a = some i) (hz : i.refcnt = 0)
    (hopen : i.fd ≠ -1) : ifaceFreeAt env a w = .ok ((), { w with
      ifaceJS := w.ifaceJS.erase i.name
      ifaces := Function.update w.ifaces a none
      openFds := w.openFds.filter (fun fd : Nat => (fd : Int) ≠ i.fd) }) := by
  refine bind_eq_ok.mpr ⟨i, w, deref_ok.mpr ⟨hi, rfl⟩, ?_⟩
  simp only [ifaceFree, hz, ne_eq, not_true_eq_false, if_false]
  refine bind_eq_ok.mpr ⟨some a, w, ?_, ?_⟩
  · change (Except.ok (AList.lookup i.name w.ifaceJS, w) : Except Fault _) = _
    rw [hc.ifaces.listed hi rfl]
  · simp only [if_true, Bool.not_true, Bool.and_false, Bool.false_eq_true, if_false, if_pos hopen]
    rfl

/-- `eptk_remove` of a serviced iface that nothing refers to. -/
theorem eptkRemove_drops (h : Attached env w) (hc : Consistent w live) (hi : w.ifaces a = some i)
    (hz : i.refcnt = 0) : eptkRemove env i.fd w = .ok (1, w.dropIface a i) := by
  obtain ⟨fd, hfd, -, ht⟩ := h.serviced a i hi
  have hgone : w.tracked.filter (fun r => (r.1 : Int) = i.fd) = [(fd, a)] := by
    apply List.perm_singleton.mp
    have hn : w.tracked.Nodup := .of_map _ hc.tracked.1
    refine (List.perm_ext_iff_of_nodup (hn.filter _) (List.nodup_singleton _)).mpr ?_
    intro r
    rw [List.mem_filter, List.mem_singleton, decide_eq_true_eq]
    constructor
    · intro hr
      have ha := (h.registered hc hi hr.1).mpr hr.2
      exact List.inj_on_of_nodup_map hc.tracked.1 hr.1 ht ha
    · intro hr
      rw [hr]
      exact ⟨ht, hfd.symm⟩
  have hopen : i.fd ≠ -1 := by omega
  refine bind_eq_ok.mpr ⟨w, w, rfl, bind_eq_ok.mpr ⟨⟨⟩, _, rfl, ?_⟩⟩
  refine bind_eq_ok.mpr ⟨(), w.dropIface a i, ?_, ?_⟩
  · rw [hgone]
    have hkeep : Consistent
        { w with tracked := w.tracked.filter (fun r => (r.1 : Int) ≠ i.fd) } live :=
      (setTracked hc (hc.tracked.1.sublist (List.filter_sublist.map _))
        (fun x hx => hc.tracked.2 x (List.mem_of_mem_filter hx))).1
    exact bind_eq_ok.mpr ⟨(), _, ifaceFreeAt_frees hkeep hi hz hopen, rfl⟩
  · rw [hgone]
    rfl

end Sockets

section Adding

/-- `iface_new` frees its object while the descriptor is still the zero of `calloc`. -/
def LeavesEarly (env : Env) (n : Text) (w : World) : Prop :=
  AList.lookup n w.ifaceJS = none ∧ env.warns = false ∧ Granted 2 w.oom ∧
    ((∃ copy, env.nstralloc n MAXLINELEN = .truncated copy) ∨
      env.nstralloc n MAXLINELEN = .copy ∧ ¬ Granted 5 w.oom)

/-- Every call that `iface_new` makes succeeds. -/
structure Openable (env : Env) (n : Text) (w : World) : Prop where
  free : AList.lookup n w.ifaceJS = none
  copied : env.nstralloc n MAXLINELEN = .copy
  memory : Granted 6 w.oom
  calls : Granted 9 w.sys

/-- What an `iface_new` leaves behind that failed. -/
structure Refused (env : Env) (n : Text) (w v : World) : Prop where
  idle : Idle w v
  openFds : v.openFds = w.openFds ∨ LeavesEarly env n w ∧
    v.openFds = w.openFds.filter (fun fd : Nat => (fd : Int) ≠ 0)

/-- A new iface with the lowest free descriptor. -/
def newIface (env : Env) (n : Text) (fd : Nat) : Iface where
  fd := fd
  handler := none
  context := none
  countIn := 0
  countOut := 0
  countCheckfail := 0
  countSockdrop := 0
  name := n
  ipPrn := env.ifAddress n
  refcnt := 0

/-- The world after an `iface_new` that succeeded. -/
def World.openIface (w : World) (env : Env) (n : Text) : World :=
  { w with
    next := w.next + 1
    oom := w.oom.drop 6
    sys := w.sys.drop 9
    openFds := lowestFd w.openFds :: w.openFds
    ifaceJS := w.ifaceJS.insert n w.next
    ifaces := Function.update w.ifaces w.next (some (newIface env n (lowestFd w.openFds))) }

/-- The exit of `iface_new` closes its descriptor. It needs a name and, where warnings are
compiled in, a hardware address. -/
theorem ifaceDie_closes {parts : IfaceParts} {msg : Text} (hz : parts.refcnt = 0) :
    Needs (fun _ => True) (parts.name.isSome ∧ (env.warns && !parts.hwaddr) = false)
      (ifaceDie env a parts msg) w (fun _ v => v.openFds = if parts.fd = -1 then w.openFds
        else w.openFds.filter (fun fd : Nat => (fd : Int) ≠ parts.fd)) := by
  unfold Needs ifaceDie ifaceFree nbErr
  simp only [hz, ne_eq, not_true_eq_false, if_false, Runs.bind_iff, Runs.modify_iff]
  cases hn : parts.name with
  | none => exact ⟨trivial, fun h => (by cases h.1)⟩
  | some name =>
    rw [← Runs.bind_iff, jsGet_run]
    by_cases hthrow : (env.warns && !parts.hwaddr) = true
    · have hneeds : ¬ (true = true ∧ (env.warns && !parts.hwaddr) = false) := by
        rw [hthrow]
        simp
      simp only [if_pos hthrow]
      split <;> exact ⟨trivial, hneeds⟩
    have hwarns : (env.warns && !parts.hwaddr) = false := by simpa using hthrow
    simp only [if_neg hthrow]
    by_cases hfd : parts.fd = -1
    · simp only [not_not.mpr hfd, if_false, if_pos hfd]
      split <;> exact ⟨⟨rfl, hwarns⟩, rfl⟩
    · simp only [hfd, not_false_eq_true, if_true, if_false]
      split <;> exact ⟨⟨rfl, hwarns⟩, rfl⟩

/-- The exit of `iface_new`: nothing changes but for the descriptor. -/
theorem ifaceDie_needs {parts : IfaceParts} {msg : Text} (hc : Consistent w live)
    (hu : Unborn w v a) (hz : parts.refcnt = 0) :
    Needs (fun _ => True) (parts.name.isSome ∧ (env.warns && !parts.hwaddr) = false)
      (ifaceDie env a parts msg) v (fun r u => r = none ∧ Idle w u ∧
        u.openFds = if parts.fd = -1 then v.openFds
          else v.openFds.filter (fun fd : Nat => (fd : Int) ≠ parts.fd)) := by
  refine Runs.imp (Runs.and (ifaceDie_closes hz) (ifaceDie_unborn hc hu hz)) ?_
  intro r u hr
  obtain ⟨⟨hp, hfds⟩, hi, hr⟩ := hr
  exact ⟨hp, hr, hu.idle.trans hi, hfds⟩

theorem ifaceDie_refuses {parts : IfaceParts} {msg : Text} (hc : Consistent w live)
    (hu : Unborn w v a) (hz : parts.refcnt = 0)
    (ho : parts.name.isSome → (env.warns && !parts.hwaddr) = false → Refused env n w { v with
      openFds := if parts.fd = -1 then v.openFds
        else v.openFds.filter (fun fd : Nat => (fd : Int) ≠ parts.fd) }) :
    Runs (fun _ => True) (ifaceDie env a parts msg) v (fun r u => r = none ∧ Refused env n w u) := by
  refine (ifaceDie_needs hc hu hz).mono (fun _ _ => trivial) ?_
  intro r u hr
  obtain ⟨⟨hname, hwarns⟩, hr, hi, hfds⟩ := hr
  refine ⟨hr, hi, ?_⟩
  rw [hfds]
  exact (ho hname hwarns).openFds

theorem Openable.opens (h : Openable env n w) :
    ifaceNew env n w = .ok (some w.next, w.openIface env n) := by
  obtain ⟨hm₁, hm⟩ := granted_succ.mp h.memory
  obtain ⟨hm₂, hm₃⟩ := granted_succ.mp hm
  obtain ⟨hm₃, hm₄⟩ := (granted_add (j := 3) (k := 1)).mp hm₃
  obtain ⟨hs₁, hs₂⟩ := granted_succ.mp h.calls
  have hsys : w.sys.drop 9 = w.sys.tail.drop 8 := (List.drop_tail ..).symm
  have hoom : w.oom.drop 6 = (w.oom.tail.tail.drop 3).tail := by
    rw [List.tail_drop, List.drop_tail, List.drop_tail]
  unfold ifaceNew World.openIface
  rw [hsys, hoom]
  refine bind_eq_ok.mpr ⟨w, w, rfl, ?_⟩
  rw [h.free]
  refine bind_eq_ok.mpr ⟨_, _, calloc_grants hm₁, bind_eq_ok.mpr ⟨_, _, strAlloc_grants hm₂, ?_⟩⟩
  rw [h.copied]
  refine bind_eq_ok.mpr ⟨true, _, allocs_grant hm₃, ?_⟩
  refine bind_eq_ok.mpr ⟨true, _, syscall_grants hs₁, bind_eq_ok.mpr ⟨_, _, rfl, ?_⟩⟩
  refine bind_eq_ok.mpr ⟨⟨⟩, _, rfl, bind_eq_ok.mpr ⟨true, _, syscalls_grant hs₂, ?_⟩⟩
  exact bind_eq_ok.mpr ⟨true, _, alloc_grants (granted_succ.mp hm₄).1, rfl⟩

/-- The tail of `iface_new` closes the socket that it opened, unless every call succeeds. -/
theorem ifaceOpen_reverts (hc : Consistent w live) (hu : Unborn w v a)
    (ho : v.openFds = w.openFds) :
    Runs (fun _ => False) (ifaceOpen env a n) v (fun r u =>
      (r = none ∧ Idle w u ∧ u.openFds = w.openFds) ∨
        (r.isSome ∧ Granted 9 v.sys ∧ v.oom.headD false = false)) := by
  have hdie : ∀ {fd : Int} {msg : Text} {u : World} {P : Prop}, Unborn w u a →
      (if fd = -1 then u.openFds else u.openFds.filter (fun x : Nat => (x : Int) ≠ fd)) =
        w.openFds →
      Runs (fun _ => False) (ifaceDie env a ⟨fd, some n, true, 0⟩ msg) u
        (fun r u => (r = none ∧ Idle w u ∧ u.openFds = w.openFds) ∨ (r.isSome ∧ P)) := by
    intro fd msg u P hu hfds
    refine ((ifaceDie_needs hc hu rfl).runs ⟨rfl, by simp⟩).imp ?_
    intro r t hr
    exact .inl ⟨hr.1, hr.2.1, hr.2.2.trans hfds⟩
  unfold ifaceOpen
  refine (syscall_takes.and (syscall_idle (E := NoDangle))).bind ?_
  intro ok v₁ hv₁
  obtain ⟨⟨hok, hv₁⟩, hi, -⟩ := hv₁
  have hu := hu.later hi
  have ho : v₁.openFds = w.openFds := by
    rw [hv₁]
    exact ho
  cases ok with
  | false => exact hdie hu (by rw [if_pos rfl, ho])
  | true =>
    simp only [Bool.not_true, Bool.false_eq_true, if_false]
    rw [Runs.bind_iff, Runs.get_iff, Runs.bind_iff, Runs.modify_iff]
    have hopen : Idle v₁ { v₁ with openFds := lowestFd v₁.openFds :: v₁.openFds } :=
      { Idle.refl v₁ with next := Nat.le_refl _ }
    have hu := hu.later hopen
    have hclose : ∀ {u : World}, u.openFds = lowestFd v₁.openFds :: v₁.openFds →
        (if ((lowestFd v₁.openFds : Nat) : Int) = -1 then u.openFds
          else u.openFds.filter (fun x : Nat => (x : Int) ≠ (lowestFd v₁.openFds : Nat))) =
            w.openFds := by
      intro u hfds
      rw [hfds, if_neg (by omega)]
      exact (close_free (lowestFd_free _)).trans ho
    refine (syscalls_takes.and (allCalls_idle (E := NoDangle) (fun _ => syscall_idle) 8)).bind ?_
    intro ok v₂ hv₂
    obtain ⟨⟨hall, -, hv₂⟩, hi, -⟩ := hv₂
    have hu := hu.later hi
    cases ok with
    | false => exact hdie hu (hclose (by rw [hv₂]))
    | true =>
      simp only [Bool.not_true, Bool.false_eq_true, if_false]
      refine (alloc_takes.and (alloc_idle (E := NoDangle))).bind ?_
      intro ok v₃ hv₃
      obtain ⟨⟨hstored, hv₃⟩, hi, -⟩ := hv₃
      have hu := hu.later hi
      cases ok with
      | false => exact hdie hu (hclose (by rw [hv₃, hv₂]))
      | true =>
        have hcalls := hall.mp rfl
        have hmem := hstored.mp rfl
        rw [hv₁] at hcalls
        rw [hv₂, hv₁] at hmem
        exact .inr ⟨rfl, granted_succ.mpr ⟨hok.mp rfl, hcalls⟩, hmem⟩

theorem ifaceOpen_refuses (hc : Consistent w live) (hu : Unborn w v a)
    (ho : v.openFds = w.openFds) (hs : ¬ (Granted 9 v.sys ∧ v.oom.headD false = false)) :
    Runs (fun _ => True) (ifaceOpen env a n) v (fun r u => r = none ∧ Refused env n w u) := by
  refine (ifaceOpen_reverts hc hu ho).mono (fun _ _ => trivial) ?_
  intro r u hr
  rcases hr with ⟨hnone, hi, hfds⟩ | ⟨-, hall⟩
  · exact ⟨hnone, hi, .inl hfds⟩
  · exact absurd hall hs

/-- A world in which an object was allocated, and maybe more. -/
theorem unborn_drawn (w : World) (oom : List Bool) :
    Unborn w { w with next := w.next + 1, oom := oom } w.next :=
  ⟨{ Idle.refl w with next := Nat.le_succ _ }, Nat.le_refl _, Nat.lt_succ_self _⟩

/-- What `iface_new` comes to, by what fails first. -/
inductive IfaceNewRun (env : Env) (n : Text) (w : World) : Prop where
  | taken (b : Addr) (listed : AList.lookup n w.ifaceJS = some b) (msg : Text)
      (run : ifaceNew env n w = .ok (none, { w with log := w.log ++ [msg] }))
  | starved (memory : w.oom.headD false = true) (msg : Text)
      (run : ifaceNew env n w =
        .ok (none, { w with oom := w.oom.tail, log := w.log ++ [msg] }))
  | unnamed (free : AList.lookup n w.ifaceJS = none) (memory : w.oom.headD false = false)
      (copy : Unnamed env w n) (msg : Text) (oom : List Bool)
      (run : ifaceNew env n w = ifaceDie env w.next ⟨0, none, false, 0⟩ msg
        { w with next := w.next + 1, oom := oom })
  | early (free : AList.lookup n w.ifaceJS = none) (memory : Granted 2 w.oom)
      (named : (∃ copy, env.nstralloc n MAXLINELEN = .truncated copy) ∨
        env.nstralloc n MAXLINELEN = .copy ∧ ¬ Granted 5 w.oom)
      (name msg : Text) (oom : List Bool)
      (run : ifaceNew env n w = ifaceDie env w.next ⟨0, some name, false, 0⟩ msg
        { w with next := w.next + 1, oom := oom })
  | built (free : AList.lookup n w.ifaceJS = none) (copied : env.nstralloc n MAXLINELEN = .copy)
      (memory : Granted 5 w.oom)
      (run : ifaceNew env n w = ifaceOpen env w.next n
        { w with next := w.next + 1, oom := w.oom.tail.tail.drop 3 })

theorem ifaceNew_run (env : Env) (n : Text) (w : World) : IfaceNewRun env n w := by
  cases hl : AList.lookup n w.ifaceJS with
  | some b => exact .taken b hl _ (by rw [ifaceNew, bind_run rfl, hl]; rfl)
  | none =>
    cases hm₁ : w.oom.headD false with
    | true =>
      exact .starved hm₁ _ (by
        rw [ifaceNew, bind_run rfl, hl]
        exact bind_run (calloc_fails hm₁))
    | false =>
      have hcalloc := calloc_grants hm₁
      cases hm₂ : w.oom.tail.headD false with
      | true =>
        exact .unnamed hl hm₁ (.inl hm₂) _ _ (by
          rw [ifaceNew, bind_run rfl, hl]
          exact (bind_run hcalloc).trans (bind_run (strAlloc_fails hm₂)))
      | false =>
        have htwo : Granted 2 w.oom :=
          granted_succ.mpr ⟨hm₁, granted_succ.mpr ⟨hm₂, granted_zero _⟩⟩
        have hfive : Granted 5 w.oom ↔ Granted 3 w.oom.tail.tail := by
          rw [granted_add (j := 2) (k := 3), and_iff_right htwo]
          simp only [← List.drop_one, List.drop_drop]
        have hstr : env.strAlloc n MAXLINELEN { w with next := w.next + 1, oom := w.oom.tail } = _ :=
          strAlloc_grants hm₂
        cases hcopy : env.nstralloc n MAXLINELEN with
        | null =>
          rw [hcopy] at hstr
          exact .unnamed hl hm₁ (.inr (.inl hcopy)) _ _ (by
            rw [ifaceNew, bind_run rfl, hl]
            exact (bind_run hcalloc).trans (bind_run hstr))
        | inval =>
          rw [hcopy] at hstr
          exact .unnamed hl hm₁ (.inr (.inr hcopy)) _ _ (by
            rw [ifaceNew, bind_run rfl, hl]
            exact (bind_run hcalloc).trans (bind_run hstr))
        | truncated copy =>
          rw [hcopy] at hstr
          exact .early hl htwo (.inl ⟨copy, hcopy⟩) _ _ _ (by
            rw [ifaceNew, bind_run rfl, hl]
            exact (bind_run hcalloc).trans (bind_run hstr))
        | copy =>
          rw [hcopy] at hstr
          by_cases hrest : Granted 3 w.oom.tail.tail
          · exact .built hl hcopy (hfive.mpr hrest) (by
              rw [ifaceNew, bind_run rfl, hl]
              exact (bind_run hcalloc).trans ((bind_run hstr).trans (bind_run (allocs_grant hrest))))
          · obtain ⟨oom, hfail⟩ := allocs_fail (w := { w with
              next := w.next + 1, oom := w.oom.tail.tail }) hrest
            exact .early hl htwo (.inr ⟨hcopy, fun h => hrest (hfive.mp h)⟩) _ _ _ (by
              rw [ifaceNew, bind_run rfl, hl]
              exact (bind_run hcalloc).trans ((bind_run hstr).trans (bind_run hfail)))

/-- What `iface_new` leaves behind when it does not open a socket. -/
theorem ifaceNew_refuses (hc : Consistent w live) (h : ¬ Openable env n w) :
    Runs (fun _ => True) (ifaceNew env n) w (fun r v => r = none ∧ Refused env n w v) := by
  cases ifaceNew_run env n w with
  | taken b _ msg run =>
    exact Runs.of_ok run ⟨rfl, { Idle.refl w with next := Nat.le_refl _ }, .inl rfl⟩
  | starved _ msg run =>
    exact Runs.of_ok run ⟨rfl, { Idle.refl w with next := Nat.le_refl _ }, .inl rfl⟩
  | unnamed _ _ _ msg oom run =>
    refine (Runs.of_run_eq run).mpr (ifaceDie_refuses hc (unborn_drawn w oom) rfl ?_)
    intro hname
    cases hname
  | early free memory named name msg oom run =>
    refine (Runs.of_run_eq run).mpr (ifaceDie_refuses hc (unborn_drawn w oom) rfl ?_)
    intro _ hwarns
    refine ⟨{ (unborn_drawn w oom).idle with }, .inr ⟨⟨free, ?_, memory, named⟩, rfl⟩⟩
    simpa using hwarns
  | built free copied memory run =>
    refine (Runs.of_run_eq run).mpr (ifaceOpen_refuses hc (unborn_drawn w _) rfl ?_)
    intro hboth
    obtain ⟨hcalls, hlast⟩ := hboth
    refine h ⟨free, copied, (granted_add (j := 5) (k := 1)).mpr ⟨memory, ?_⟩, hcalls⟩
    rw [List.drop_tail, List.drop_tail] at hlast
    exact granted_succ.mpr ⟨hlast, granted_zero _⟩

/-- An iface that is opened is registered as well, and no early failure closes the socket
of another one. -/
structure AddMeets (env : Env) (n : Text) (w : World) : Prop where
  registers : Openable env n w → (w.sys.drop 9).headD false = false
  spares : LeavesEarly env n w → ∀ a i, w.ifaces a = some i → i.fd ≠ 0

theorem Attached.refused (h : Attached env w) (hm : AddMeets env n w) (hr : Refused env n w v) :
    Attached env v := by
  rcases hr.openFds with ho | ⟨hleave, ho⟩
  · exact h.of_same (by rw [hr.idle.ifaces]; exact .refl _ _) ho hr.idle.tracked
  refine ⟨?_, ?_, ?_⟩
  · intro a i ha
    rw [hr.idle.ifaces] at ha
    obtain ⟨fd, hfd, hopen, ht⟩ := h.serviced a i ha
    have hne := hm.spares hleave a i ha
    refine ⟨fd, hfd, ?_, by rw [hr.idle.tracked]; exact ht⟩
    rw [ho]
    exact List.mem_filter.mpr ⟨hopen, decide_eq_true (by rw [← hfd]; exact hne)⟩
  · rw [hr.idle.ifaces]
    exact h.own
  · rw [hr.idle.ifaces]
    exact h.named

/-- The world after an `iface_new` and its `eptk_register`. -/
def World.addIface (w : World) (env : Env) (n : Text) : World :=
  { w.openIface env n with
    sys := w.sys.drop 10
    tracked := w.tracked ++ [(lowestFd w.openFds, w.next)] }

theorem Attached.add (h : Attached env w) (ho : Openable env n w) : Attached env (w.addIface env n) := by
  have hcases : ∀ a i, (w.addIface env n).ifaces a = some i →
      a = w.next ∧ i = newIface env n (lowestFd w.openFds) ∨ w.ifaces a = some i := by
    intro a i ha
    rcases of_updated ha with ⟨rfl, hp⟩ | ⟨-, ha⟩
    · cases hp
      exact .inl ⟨rfl, rfl⟩
    · exact .inr ha
  have hfree : ∀ a i, w.ifaces a = some i → i.fd ≠ lowestFd w.openFds := by
    intro a i ha he
    obtain ⟨fd, hfd, hopen, -⟩ := h.serviced a i ha
    have : fd = lowestFd w.openFds := by omega
    exact lowestFd_free w.openFds (this ▸ hopen)
  refine ⟨?_, ?_, ?_⟩
  · intro a i ha
    rcases hcases a i ha with ⟨rfl, rfl⟩ | ha
    · exact ⟨lowestFd w.openFds, rfl, List.mem_cons_self,
        List.mem_append_right _ (List.mem_singleton_self _)⟩
    · obtain ⟨fd, hfd, hopen, ht⟩ := h.serviced a i ha
      exact ⟨fd, hfd, List.mem_cons_of_mem _ hopen, List.mem_append_left _ ht⟩
  · intro a b i j ha hb he
    rcases hcases a i ha with ⟨rfl, rfl⟩ | ha <;> rcases hcases b j hb with ⟨rfl, rfl⟩ | hb
    · rfl
    · exact absurd he.symm (hfree b j hb)
    · exact absurd he (hfree a i ha)
    · exact h.own a b i j ha hb he
  · intro a i ha
    rcases hcases a i ha with ⟨rfl, rfl⟩ | ha
    · exact ho.copied
    · exact h.named a i ha

/-- The registration of an iface that was just opened. -/
theorem eptkRegister_adds (hs : (w.sys.drop 9).headD false = false) :
    eptkRegister (lowestFd w.openFds : Nat) w.next (w.openIface env n) =
      .ok (true, w.addIface env n) := by
  refine bind_eq_ok.mpr ⟨true, _, syscall_grants hs, ?_⟩
  have hsys : w.sys.drop 10 = (w.sys.drop 9).tail := (List.tail_drop ..).symm
  unfold World.addIface
  rw [hsys]
  rfl

/-- `iface_parse` in add mode, after its walk. -/
theorem ifaceParseMode_attached {s : IfaceArgs} (hc : Consistent w live) (h : Attached env w)
    (hm : AddMeets env s.name w) :
    Runs (fun _ => True) (ifaceParseMode env .add s) w (fun _ v => Attached env v) := by
  unfold ifaceParseMode
  by_cases ho : Openable env s.name w
  · refine Runs.bind_of_ok ho.opens ?_
    refine Runs.bind_of_ok (deref_ok.mpr ⟨Function.update_self .., rfl⟩) ?_
    refine Runs.bind_of_ok (eptkRegister_adds (hm.registers ho)) ?_
    exact (Obeys.parseEmit (P := attached)).keeps.runs (h.add ho)
  · refine (ifaceNew_refuses hc ho).bind ?_
    intro r v hv
    obtain ⟨rfl, hr⟩ := hv
    exact (Obeys.parseDie (P := attached)).keeps.runs (h.refused hm hr)

end Adding

end Xdpacket
