import Xdpacket.Proofs.Contracts

namespace Xdpacket

variable {w : World} {env : Env} {n : Text} {E : Fault → Prop} {j k : Nat} {calls : List Bool}

/-- The next `k` calls all succeed. -/
def Granted (k : Nat) (calls : List Bool) : Prop := ∀ fails ∈ calls.take k, fails = false

instance : Decidable (Granted k calls) :=
  inferInstanceAs (Decidable (∀ fails ∈ calls.take k, fails = false))

theorem granted_zero (calls : List Bool) : Granted 0 calls := fun _ h => (by cases h)

theorem granted_succ :
    Granted (k + 1) calls ↔ calls.headD false = false ∧ Granted k calls.tail := by
  cases calls with
  | nil => simp [Granted]
  | cons fails rest => simp [Granted]

theorem granted_add : Granted (j + k) calls ↔ Granted j calls ∧ Granted k (calls.drop j) := by
  unfold Granted
  rw [List.take_add]
  simp only [List.mem_append, or_imp, forall_and]

section Draws

theorem alloc_takes : Runs E alloc w (fun ok v =>
    (ok = true ↔ w.oom.headD false = false) ∧ v = { w with oom := w.oom.tail }) := by
  refine alloc_draw.imp ?_
  intro ok v hv
  refine ⟨?_, hv.2⟩
  cases ok <;> simpa using hv.1

theorem syscall_takes : Runs E syscall w (fun ok v =>
    (ok = true ↔ w.sys.headD false = false) ∧ v = { w with sys := w.sys.tail }) := by
  unfold syscall
  rw [Runs.modifyGet_iff]
  cases hs : w.sys with
  | nil =>
    refine ⟨by simp, ?_⟩
    change w = _
    rw [List.tail_nil, ← hs]
  | cons fails rest => cases fails <;> exact ⟨by simp, rfl⟩

/-- The calls of a loop are the next ones, and it ends at the first that fails. -/
theorem allCalls_takes {call : M Bool} (coming : World → List Bool)
    (leave : World → List Bool → World) (hget : ∀ w calls, coming (leave w calls) = calls)
    (hset : ∀ w calls calls', leave (leave w calls) calls' = leave w calls')
    (hid : ∀ w, leave w (coming w) = w)
    (hcall : ∀ w, Runs E call w (fun ok v =>
      (ok = true ↔ (coming w).headD false = false) ∧ v = leave w (coming w).tail)) :
    Runs E (allCalls call k) w (fun ok v => (ok = true ↔ Granted k (coming w)) ∧
      (ok = true → coming v = (coming w).drop k) ∧ v = leave w (coming v)) := by
  induction k generalizing w with
  | zero => exact ⟨iff_of_true rfl (granted_zero _), fun _ => rfl, (hid w).symm⟩
  | succ k ih =>
    unfold allCalls
    refine (hcall w).bind ?_
    intro ok v hv
    obtain ⟨hok, rfl⟩ := hv
    cases ok with
    | false =>
      refine ⟨⟨fun h => (by cases h), fun h => hok.mpr (granted_succ.mp h).1⟩,
        fun h => (by cases h), ?_⟩
      rw [hget]
    | true =>
      refine (ih (w := leave w (coming w).tail)).imp ?_
      intro ok v hv
      rw [hget, hset] at hv
      refine ⟨?_, ?_, hv.2.2⟩
      · rw [hv.1, granted_succ, and_iff_right (hok.mp rfl)]
      · intro h
        rw [hv.2.1 h]
        exact List.drop_tail ..

theorem syscalls_takes : Runs E (allCalls syscall k) w (fun ok v =>
    (ok = true ↔ Granted k w.sys) ∧ (ok = true → v.sys = w.sys.drop k) ∧
      v = { w with sys := v.sys }) :=
  allCalls_takes World.sys (fun w calls => { w with sys := calls })
    (fun _ _ => rfl) (fun _ _ _ => rfl) (fun _ => rfl) (fun _ => syscall_takes)

theorem allocs_takes : Runs E (allCalls alloc k) w (fun ok v =>
    (ok = true ↔ Granted k w.oom) ∧ (ok = true → v.oom = w.oom.drop k) ∧
      v = { w with oom := v.oom }) :=
  allCalls_takes World.oom (fun w calls => { w with oom := calls })
    (fun _ _ => rfl) (fun _ _ _ => rfl) (fun _ => rfl) (fun _ => alloc_takes)

end Draws

section Outcomes

theorem alloc_grants (h : w.oom.headD false = false) :
    alloc w = .ok (true, { w with oom := w.oom.tail }) := by
  obtain ⟨ok, v, hr, hok, hv⟩ := (alloc_takes (E := fun _ => False) (w := w)).exists_ok
  obtain rfl := hok.mpr h
  rw [hr, hv]

theorem alloc_fails (h : w.oom.headD false = true) :
    alloc w = .ok (false, { w with oom := w.oom.tail }) := by
  obtain ⟨ok, v, hr, hok, hv⟩ := (alloc_draw (E := fun _ => False) (w := w)).exists_ok
  obtain rfl := hok.mpr h
  rw [hr, hv]

theorem syscall_grants (h : w.sys.headD false = false) :
    syscall w = .ok (true, { w with sys := w.sys.tail }) := by
  obtain ⟨ok, v, hr, hok, hv⟩ := (syscall_takes (E := fun _ => False) (w := w)).exists_ok
  obtain rfl := hok.mpr h
  rw [hr, hv]

theorem allocs_grant (h : Granted k w.oom) :
    allCalls alloc k w = .ok (true, { w with oom := w.oom.drop k }) := by
  obtain ⟨ok, v, hr, hok, hd, hv⟩ := (allocs_takes (E := fun _ => False) (w := w) (k := k)).exists_ok
  obtain rfl := hok.mpr h
  rw [hr, hv, hd rfl]

theorem syscalls_grant (h : Granted k w.sys) :
    allCalls syscall k w = .ok (true, { w with sys := w.sys.drop k }) := by
  obtain ⟨ok, v, hr, hok, hd, hv⟩ := (syscalls_takes (E := fun _ => False) (w := w) (k := k)).exists_ok
  obtain rfl := hok.mpr h
  rw [hr, hv, hd rfl]

theorem allocs_fail (h : ¬ Granted k w.oom) :
    ∃ oom, allCalls alloc k w = .ok (false, { w with oom := oom }) := by
  obtain ⟨ok, v, hr, hok, -, hv⟩ := (allocs_takes (E := fun _ => False) (w := w) (k := k)).exists_ok
  obtain rfl : ok = false := by simpa using fun he => h (hok.mp he)
  exact ⟨v.oom, by rw [hr, ← hv]⟩

theorem calloc_grants (h : w.oom.headD false = false) :
    calloc w = .ok (some w.next, { w with next := w.next + 1, oom := w.oom.tail }) :=
  bind_eq_ok.mpr ⟨true, _, alloc_grants h, rfl⟩

theorem calloc_fails (h : w.oom.headD false = true) :
    calloc w = .ok (none, { w with oom := w.oom.tail }) :=
  bind_eq_ok.mpr ⟨false, _, alloc_fails h, rfl⟩

theorem strAlloc_grants {max : Nat} (h : w.oom.headD false = false) :
    env.strAlloc n max w = .ok (env.nstralloc n max, { w with oom := w.oom.tail }) :=
  bind_eq_ok.mpr ⟨true, _, alloc_grants h, rfl⟩

theorem strAlloc_fails {max : Nat} (h : w.oom.headD false = true) :
    env.strAlloc n max w = .ok (.null, { w with oom := w.oom.tail }) :=
  bind_eq_ok.mpr ⟨false, _, alloc_fails h, rfl⟩

end Outcomes

section Names

/-- The copy of the name fails, once the object is there. -/
def Unnamed (env : Env) (w : World) (n : Text) : Prop :=
  w.oom.tail.headD false = true ∨ env.nstralloc n MAXLINELEN = .null ∨
    env.nstralloc n MAXLINELEN = .inval

theorem Unnamed.answer (h : Unnamed env w n) (hm : Granted 2 w.oom) :
    env.nstralloc n MAXLINELEN = .null ∨ env.nstralloc n MAXLINELEN = .inval := by
  refine h.resolve_left ?_
  rw [(granted_succ.mp (granted_succ.mp hm).2).1]
  exact Bool.false_ne_true

theorem named_of_not_unnamed (hm : w.oom.headD false = false) (h : ¬ Unnamed env w n) :
    Granted 2 w.oom ∧ (env.nstralloc n MAXLINELEN = .copy ∨
      ∃ copy, env.nstralloc n MAXLINELEN = .truncated copy) := by
  have htail : w.oom.tail.headD false = false := by simpa using fun ht => h (.inl ht)
  refine ⟨granted_succ.mpr ⟨hm, granted_succ.mpr ⟨htail, granted_zero _⟩⟩, ?_⟩
  cases hs : env.nstralloc n MAXLINELEN with
  | null => exact absurd (.inr (.inl hs)) h
  | inval => exact absurd (.inr (.inr hs)) h
  | truncated copy => exact .inr ⟨copy, rfl⟩
  | copy => exact .inl rfl

end Names

end Xdpacket
