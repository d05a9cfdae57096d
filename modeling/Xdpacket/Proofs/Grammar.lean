import Xdpacket.Proofs.Literals
import Xdpacket.Proofs.NoLeaks
import Xdpacket.Proofs.Replay

namespace Xdpacket

variable {E : Fault → Prop} {w v : World} {live : Multiset Ref} {env : Env} {doc : Document}
  {pairs : Pairs doc} {kvs : List (Text × Text)} {n : Text}

section Texts

/-- The texts of a mapping whose keys and values are scalars. -/
def ScalarPairs (doc : Document) (pairs : Pairs doc) (kvs : List (Text × Text)) : Prop :=
  List.Forall₂ (fun p kv => doc.node p.1 = .scalar kv.1 ∧ doc.node p.2 = .scalar kv.2) pairs kvs

/-- What is given under a key, which has a long and a short form. -/
def given (kvs : List (Text × Text)) (key short : Text) : List Text :=
  (kvs.filter (fun kv => kv.1 = key ∨ kv.1 = short)).map Prod.snd

/-- The texts that are read as numbers. -/
def numberTexts (kvs : List (Text × Text)) : List Text :=
  given kvs "offt" "o" ++ given kvs "len" "l" ++ given kvs "mask" "m"

/-- Some number does not even fit a `long`. -/
def Overflows (kvs : List (Text × Text)) : Prop := ∃ txt ∈ numberTexts kvs, (strtol txt).2 = true

/-- Of several texts under one key the last one counts. -/
def nameGiven (kvs : List (Text × Text)) : Text := (given kvs "field" "f").getLast?.getD ""

/-- The number that `strtol` reads from the last text, if there is one. -/
def numberRead (unset : Int) (texts : List Text) : Int :=
  (texts.getLast?.map (fun txt => (strtol txt).1)).getD unset

theorem given_append (kvs kvs' : List (Text × Text)) (key short : Text) :
    given (kvs ++ kvs') key short = given kvs key short ++ given kvs' key short := by
  simp [given]

theorem numberRead_append (unset : Int) (xs ys : List Text) :
    numberRead unset (xs ++ ys) = numberRead (numberRead unset xs) ys := by
  unfold numberRead
  rw [List.getLast?_append]
  cases ys.getLast? <;> rfl

theorem overflows_append (kvs kvs' : List (Text × Text)) :
    Overflows (kvs ++ kvs') ↔ Overflows kvs ∨ Overflows kvs' := by
  unfold Overflows numberTexts
  simp only [given_append, List.mem_append]
  constructor
  · intro ⟨txt, hm, he⟩
    rcases hm with (h | h) | h <;> rcases h with h | h
    · exact .inl ⟨txt, .inl (.inl h), he⟩
    · exact .inr ⟨txt, .inl (.inl h), he⟩
    · exact .inl ⟨txt, .inl (.inr h), he⟩
    · exact .inr ⟨txt, .inl (.inr h), he⟩
    · exact .inl ⟨txt, .inr h, he⟩
    · exact .inr ⟨txt, .inr h, he⟩
  · intro h
    rcases h with ⟨txt, hm, he⟩ | ⟨txt, hm, he⟩
    · exact ⟨txt, hm.imp (Or.imp .inl .inl) .inl, he⟩
    · exact ⟨txt, hm.imp (Or.imp .inr .inr) .inr, he⟩

end Texts

section Walk

/-- The local variables after the texts have been read. -/
structure TextsRead (kvs : List (Text × Text)) (s t : FieldArgs) : Prop where
  name : t.name = (given kvs "field" "f").getLast?.or s.name
  offt : t.offt = numberRead s.offt (given kvs "offt" "o")
  len : t.len = numberRead s.len (given kvs "len" "l")
  mask : t.mask = numberRead s.mask (given kvs "mask" "m")
  fits : ¬ Overflows kvs

/-- The walk goes through, or stops at a number that overflows. -/
def Walked (kvs : List (Text × Text)) (s : FieldArgs) : Step FieldArgs → Prop
  | .go t => TextsRead kvs s t
  | .die t => t.errCnt ≠ 0 ∧ Overflows kvs

theorem given_one (key txt long short : Text) :
    given [(key, txt)] long short = if key = long ∨ key = short then [txt] else [] := by
  unfold given
  by_cases h : key = long ∨ key = short <;> simp [h]

theorem fieldParseKey_reads {txt : Text} {val : Node doc.size} (hval : val = .scalar txt)
    (key : Text) (s : FieldArgs) (w : World) :
    ∃ r log, fieldParseKey key val s w = .ok (r, { w with log := log }) ∧
      Walked [(key, txt)] s r := by
  subst hval
  have hnumber : ∀ assign : Int → FieldArgs, numberTexts [(key, txt)] = [txt] →
      (¬ Overflows [(key, txt)] → TextsRead [(key, txt)] s (assign (strtol txt).1)) →
      ∃ r log, fieldParseNumber key (.scalar txt : Node doc.size) s assign w =
        .ok (r, { w with log := log }) ∧ Walked [(key, txt)] s r := by
    intro assign hm hread
    have hover : Overflows [(key, txt)] ↔ (strtol txt).2 = true := by
      rw [Overflows, hm]
      simp
    unfold fieldParseNumber
    simp only [Node.txt, needText, pure_bind]
    cases he : (strtol txt).2 with
    | true => exact ⟨_, _, rfl, Nat.succ_ne_zero _, hover.mpr he⟩
    | false => exact ⟨_, w.log, rfl, hread (by rw [hover, he]; exact Bool.false_ne_true)⟩
  unfold fieldParseKey
  by_cases hname : key = "field" ∨ key = "f"
  · rw [if_pos hname]
    refine ⟨_, w.log, rfl, ?_⟩
    rcases hname with rfl | rfl
    all_goals constructor <;> simp [given_one, numberRead, Overflows, numberTexts, Node.txt]
  rw [if_neg hname]
  by_cases hofft : key = "offt" ∨ key = "o"
  · rw [if_pos hofft]
    rcases hofft with rfl | rfl
    all_goals
      refine hnumber _ (by simp [given_one, numberTexts]) (fun hf => ⟨?_, ?_, ?_, ?_, hf⟩)
      all_goals simp [given_one, numberRead]
  rw [if_neg hofft]
  by_cases hlen : key = "len" ∨ key = "l"
  · rw [if_pos hlen]
    rcases hlen with rfl | rfl
    all_goals
      refine hnumber _ (by simp [given_one, numberTexts]) (fun hf => ⟨?_, ?_, ?_, ?_, hf⟩)
      all_goals simp [given_one, numberRead]
  rw [if_neg hlen]
  by_cases hmask : key = "mask" ∨ key = "m"
  · rw [if_pos hmask]
    rcases hmask with rfl | rfl
    all_goals
      refine hnumber _ (by simp [given_one, numberTexts]) (fun hf => ⟨?_, ?_, ?_, ?_, hf⟩)
      all_goals simp [given_one, numberRead]
  rw [if_neg hmask]
  refine ⟨_, _, rfl, ?_⟩
  constructor <;>
    simp [given_one, numberRead, Overflows, numberTexts, hname, hofft, hlen, hmask]

theorem fieldWalk_texts (h : ScalarPairs doc pairs kvs) (s : FieldArgs) (w : World) :
    ∃ r log, yForMap doc fieldParseKey pairs s w = .ok (r, { w with log := log }) ∧
      Walked kvs s r := by
  induction h generalizing s w with
  | nil =>
    refine ⟨_, w.log, rfl, ?_⟩
    constructor <;> simp [given, numberRead, Overflows, numberTexts]
  | @cons pair kv pairs kvs hpair hpairs ih =>
    obtain ⟨k, x⟩ := pair
    obtain ⟨key, txt⟩ := kv
    obtain ⟨r, log, hr, hw⟩ := fieldParseKey_reads hpair.2 key s w
    have hsplit : (key, txt) :: kvs = [(key, txt)] ++ kvs := rfl
    rw [hsplit]
    unfold yForMap
    simp only [hpair.1, scalarValue, pure_bind]
    cases r with
    | die t =>
      refine ⟨.die t, log, bind_eq_ok.mpr ⟨_, _, hr, rfl⟩, hw.1, ?_⟩
      exact (overflows_append _ _).mpr (.inl hw.2)
    | go t =>
      obtain ⟨r, log', hr', hw'⟩ := ih t { w with log := log }
      refine ⟨r, log', bind_eq_ok.mpr ⟨_, _, hr, hr'⟩, ?_⟩
      cases r with
      | die u => exact ⟨hw'.1, (overflows_append _ _).mpr (.inr hw'.2)⟩
      | go u =>
        constructor
        · rw [hw'.name, hw.name, given_append, List.getLast?_append, Option.or_assoc]
        · rw [hw'.offt, hw.offt, given_append, numberRead_append]
        · rw [hw'.len, hw.len, given_append, numberRead_append]
        · rw [hw'.mask, hw.mask, given_append, numberRead_append]
        · rw [overflows_append]
          exact not_or.mpr ⟨hw.fits, hw'.fits⟩

end Walk

section New

variable {offt len mask : Int}

theorem fieldNew_taken (hl : AList.lookup n v.fieldJS ≠ none) :
    Frames E Idle (fieldNew env (some n) offt len mask) v (fun r _ => r = none) := by
  have hsome : (AList.lookup n v.fieldJS).isSome = true := Option.isSome_iff_ne_none.mpr hl
  unfold fieldNew
  rw [Frames.get_bind]
  simp only [hsome, if_true]
  exact ⟨{ Idle.refl v with next := Nat.le_refl _ }, rfl⟩

theorem fieldNew_starved (hl : AList.lookup n v.fieldJS = none) (hm : v.oom.headD false = true) :
    Frames E Idle (fieldNew env (some n) offt len mask) v (fun r _ => r = none) := by
  unfold fieldNew
  rw [Frames.get_bind]
  simp only [hl, Option.isSome_none, Bool.false_eq_true, if_false]
  exact Runs.bind_of_ok (calloc_fails hm) ⟨{ Idle.refl v with next := Nat.le_refl _ }, rfl⟩

/-- Without a copy of its name the object cannot be looked up to be freed. -/
theorem fieldNew_unnamed (hl : AList.lookup n v.fieldJS = none) (hm : v.oom.headD false = false)
    (hs : Unnamed env v n) (r : Option Addr) (u : World) :
    fieldNew env (some n) offt len mask v ≠ .ok (r, u) := by
  intro h
  obtain ⟨_, _, hget, h⟩ := bind_eq_ok.mp h
  cases hget
  simp only [hl, Option.isSome_none, Bool.false_eq_true, if_false] at h
  obtain ⟨ret, v₁, hc, h⟩ := bind_eq_ok.mp h
  rw [calloc_grants hm] at hc
  cases hc
  obtain ⟨answer, v₂, hc, h⟩ := bind_eq_ok.mp h
  have hanswer : answer = .null ∨ answer = .inval := by
    cases hf : v.oom.tail.headD false with
    | true =>
      rw [strAlloc_fails hf] at hc
      cases hc
      exact .inl rfl
    | false =>
      rw [strAlloc_grants hf] at hc
      cases hc
      exact hs.resolve_left (by rw [hf]; exact Bool.false_ne_true)
  have hfree : ∀ u' : World, (fieldFree v.next none 0 >>= fun _ => pure (none : Option Addr)) u' ≠
      .ok (r, u) := by
    intro u' h
    obtain ⟨_, _, h, -⟩ := bind_eq_ok.mp h
    cases h
  rcases hanswer with rfl | rfl
  · obtain ⟨_, u', -, h⟩ := bind_eq_ok.mp h
    exact hfree u' h
  · obtain ⟨_, u', -, h⟩ := bind_eq_ok.mp h
    exact hfree u' h

/-- Once there is an object with a name, an error frees it again. -/
theorem fieldNew_drops {msg name : Text} (h : Consistent v live) :
    Runs E (nbErr msg >>= fun _ => fieldFree v.next (some name) 0 >>= fun _ =>
        pure (none : Option Addr)) { v with next := v.next + 1, oom := v.oom.tail.tail }
      (fun r u => Idle v u ∧ r = none) := by
  have hborn : Unborn v { v with next := v.next + 1, oom := v.oom.tail.tail } v.next :=
    ⟨{ Idle.refl v with next := Nat.le_succ _ }, Nat.le_refl _, Nat.lt_succ_self _⟩
  refine Runs.bind nbErr_idle ?_
  intro _ u hu
  have hu := hborn.later hu.1
  refine Runs.bind (fieldFree_named h hu) ?_
  intro _ t ht
  exact ⟨hu.idle.trans ht.1, rfl⟩

/-- A name that is cut, or a number out of range. -/
theorem fieldNew_dropped (h : Consistent v live) (hl : AList.lookup n v.fieldJS = none)
    (hm : Granted 2 v.oom) (hs : (∃ copy, env.nstralloc n MAXLINELEN = .truncated copy) ∨
      env.nstralloc n MAXLINELEN = .copy ∧
        ∃ msg, fieldSetOf offt len (if mask = 0 then 0xff else mask) = .error msg) :
    Frames E Idle (fieldNew env (some n) offt len mask) v (fun r _ => r = none) := by
  obtain ⟨hm, htail⟩ := granted_succ.mp hm
  unfold fieldNew
  rw [Frames.get_bind]
  simp only [hl, Option.isSome_none, Bool.false_eq_true, if_false]
  refine Runs.bind_of_ok (calloc_grants hm) ?_
  refine Runs.bind_of_ok (strAlloc_grants (granted_succ.mp htail).1) ?_
  rcases hs with ⟨copy, hs⟩ | ⟨hs, msg, hset⟩
  · rw [hs]
    exact fieldNew_drops h
  · rw [hs]
    simp only [hset]
    exact fieldNew_drops h

end New

section Outcome

/-- Each text is, in its entirety, a literal of a number in range. -/
def LiteralsIn (texts : List Text) (lo hi : Int) : Prop :=
  ∀ txt ∈ texts, ∃ v, Literal txt.toList v ∧ lo ≤ v ∧ v ≤ hi

structure InGrammar (kvs : List (Text × Text)) : Prop where
  offt : LiteralsIn (given kvs "offt" "o") (-2147483648) 2147483647
  len : LiteralsIn (given kvs "len" "l") 0 65535
  mask : LiteralsIn (given kvs "mask" "m") 0 255

/-- The mapping is one that a field should be made of. -/
structure Acceptable (env : Env) (w : World) (kvs : List (Text × Text)) : Prop where
  free : AList.lookup (nameGiven kvs) w.fieldJS = none
  copied : env.nstralloc (nameGiven kvs) MAXLINELEN = .copy
  grammar : InGrammar kvs

/-- The number that is given, or zero. -/
def Denotes (texts : List Text) (v : Int) : Prop :=
  match texts.getLast? with
  | none => v = 0
  | some txt => Literal txt.toList v

/-- The set has exactly the values given; a mask of zero becomes `0xff`. -/
structure SetGiven (kvs : List (Text × Text)) (set : FieldSet) : Prop where
  offt : Denotes (given kvs "offt" "o") set.offt.toInt
  len : Denotes (given kvs "len" "l") set.len.toNat
  mask : ∃ mask, Denotes (given kvs "mask" "m") mask ∧
    (set.mask.toNat : Int) = if mask = 0 then 0xff else mask
  flags : set.flags = 0

/-- An error, and nothing has changed. -/
def TurnedDown (w : World) (res : Except Fault (Nat × World)) : Prop :=
  ∃ r v, res = .ok (r, v) ∧ r ≠ 0 ∧ Idle w v

/-- What is expected of `field_parse` in add mode. -/
structure FieldOutcome (env : Env) (w : World) (kvs : List (Text × Text))
    (res : Except Fault (Nat × World)) : Prop where
  stored : Acceptable env w kvs → ∃ r v set, res = .ok (r, v) ∧ SetGiven kvs set ∧
    Idle (w.addField (nameGiven kvs) set) v
  refused : ¬ Acceptable env w kvs → TurnedDown w res

/-- The numbers that `strtol` reads from the last texts are in range. -/
structure ReadInRange (kvs : List (Text × Text)) : Prop where
  offt : -2147483648 ≤ numberRead 0 (given kvs "offt" "o") ∧
    numberRead 0 (given kvs "offt" "o") ≤ 2147483647
  len : 0 ≤ numberRead 0 (given kvs "len" "l") ∧ numberRead 0 (given kvs "len" "l") ≤ 65535
  mask : 0 ≤ numberRead 0 (given kvs "mask" "m") ∧ numberRead 0 (given kvs "mask" "m") ≤ 255

/-- The mappings and states in which `field_parse` does what is expected: it
finds another reason to refuse, or every number is a literal in range. -/
inductive KeepsGrammar (env : Env) (w : World) (kvs : List (Text × Text)) : Prop where
  | overflows (h : Overflows kvs)
  | taken (h : AList.lookup (nameGiven kvs) w.fieldJS ≠ none)
  | starved (h : w.oom.headD false = true) (refused : ¬ Acceptable env w kvs)
  | truncated (h : Granted 2 w.oom) (copy : Text)
      (long : env.nstralloc (nameGiven kvs) MAXLINELEN = .truncated copy)
  | outside (h : Granted 2 w.oom) (copied : env.nstralloc (nameGiven kvs) MAXLINELEN = .copy)
      (range : ¬ ReadInRange kvs)
  | literals (h : Granted 2 w.oom) (copied : env.nstralloc (nameGiven kvs) MAXLINELEN = .copy)
      (grammar : InGrammar kvs)

theorem strtol_in {txt : Text} {i : Int} (h : Literal txt.toList i)
    (hlo : -9223372036854775808 ≤ i) (hhi : i ≤ 9223372036854775807) : strtol txt = (i, false) := by
  have ht : txt.toList = [] ++ txt.toList := rfl
  rw [strtol_literal ht (fun _ hm => (by cases hm)) h, clampLong, if_neg (by omega),
    if_neg (by omega)]

theorem LiteralsIn.read {texts : List Text} {lo hi : Int} (h : LiteralsIn texts lo hi)
    (hlo : -9223372036854775808 ≤ lo ∧ lo ≤ 0) (hhi : 0 ≤ hi ∧ hi ≤ 9223372036854775807) :
    Denotes texts (numberRead 0 texts) ∧ lo ≤ numberRead 0 texts ∧ numberRead 0 texts ≤ hi := by
  unfold Denotes numberRead
  cases hl : texts.getLast? with
  | none => exact ⟨rfl, hlo.2, hhi.1⟩
  | some txt =>
    obtain ⟨i, hi, hlow, hhigh⟩ := h txt (List.mem_of_getLast? hl)
    have hread : (strtol txt).1 = i := by rw [strtol_in hi (by omega) (by omega)]
    simp only [Option.map_some, Option.getD_some, hread]
    exact ⟨hi, hlow, hhigh⟩

theorem LiteralsIn.fits {texts : List Text} {lo hi : Int} (h : LiteralsIn texts lo hi)
    (hlo : -9223372036854775808 ≤ lo) (hhi : hi ≤ 9223372036854775807) :
    ∀ txt ∈ texts, (strtol txt).2 = false := by
  intro txt hm
  obtain ⟨i, hi, hlow, hhigh⟩ := h txt hm
  rw [strtol_in hi (by omega) (by omega)]

theorem InGrammar.not_overflows (h : InGrammar kvs) : ¬ Overflows kvs := by
  intro ⟨txt, hm, he⟩
  have hfalse : (strtol txt).2 = false := by
    unfold numberTexts at hm
    rw [List.mem_append, List.mem_append] at hm
    rcases hm with (hm | hm) | hm
    · exact h.offt.fits (by decide) (by decide) txt hm
    · exact h.len.fits (by decide) (by decide) txt hm
    · exact h.mask.fits (by decide) (by decide) txt hm
  rw [hfalse] at he
  cases he

theorem InGrammar.readInRange (h : InGrammar kvs) : ReadInRange kvs where
  offt := (h.offt.read (by decide) (by decide)).2
  len := (h.len.read (by decide) (by decide)).2
  mask := (h.mask.read (by decide) (by decide)).2

/-- The three checks pass exactly for numbers in range, and then nothing is lost. -/
theorem fieldSetOf_ok {offt len mask : Int} (ho : -2147483648 ≤ offt ∧ offt ≤ 2147483647)
    (hl : 0 ≤ len ∧ len ≤ 65535) (hm : 0 ≤ mask ∧ mask ≤ 255) :
    ∃ set, fieldSetOf offt len mask = .ok set ∧ set.offt.toInt = offt ∧
      (set.len.toNat : Int) = len ∧ (set.mask.toNat : Int) = mask ∧ set.flags = 0 := by
  unfold fieldSetOf
  rw [if_neg (by omega), if_neg (by omega), if_neg (by omega)]
  refine ⟨_, rfl, ?_, ?_, ?_, rfl⟩
  · exact Int32.toInt_ofInt_of_le (by simpa using ho.1) (by simp; omega)
  · simp only [UInt16.toNat_ofNat']
    omega
  · simp only [UInt8.toNat_ofNat']
    omega

theorem fieldSetOf_error {offt len mask : Int} (h : ¬ ((-2147483648 ≤ offt ∧ offt ≤ 2147483647) ∧
    (0 ≤ len ∧ len ≤ 65535) ∧ 0 ≤ mask ∧ mask ≤ 255)) :
    ∃ msg, fieldSetOf offt len mask = .error msg := by
  unfold fieldSetOf
  split
  · exact ⟨_, rfl⟩
  · split
    · exact ⟨_, rfl⟩
    · split
      · exact ⟨_, rfl⟩
      · exact absurd (by omega) h

theorem mask_in_range {mask : Int} (h : 0 ≤ mask ∧ mask ≤ 255) :
    0 ≤ (if mask = 0 then 0xff else mask) ∧ (if mask = 0 then 0xff else mask) ≤ 255 := by
  split <;> omega

/-- What the range checks make of the numbers read. -/
theorem ReadInRange.set (h : ReadInRange kvs) :
    ∃ set, fieldSetOf (numberRead 0 (given kvs "offt" "o")) (numberRead 0 (given kvs "len" "l"))
        (if numberRead 0 (given kvs "mask" "m") = 0 then 0xff
          else numberRead 0 (given kvs "mask" "m")) = .ok set ∧
      (InGrammar kvs → SetGiven kvs set) := by
  obtain ⟨set, hset, ho, hl, hm, hf⟩ := fieldSetOf_ok h.offt h.len (mask_in_range h.mask)
  refine ⟨set, hset, fun hg => ⟨?_, ?_, ?_, hf⟩⟩
  · rw [ho]
    exact (hg.offt.read (by decide) (by decide)).1
  · rw [hl]
    exact (hg.len.read (by decide) (by decide)).1
  · exact ⟨_, (hg.mask.read (by decide) (by decide)).1, hm⟩

theorem ReadInRange.refused (h : ¬ ReadInRange kvs) :
    ∃ msg, fieldSetOf (numberRead 0 (given kvs "offt" "o")) (numberRead 0 (given kvs "len" "l"))
        (if numberRead 0 (given kvs "mask" "m") = 0 then 0xff
          else numberRead 0 (given kvs "mask" "m")) = .error msg := by
  apply fieldSetOf_error
  intro ⟨ho, hl, hm⟩
  refine h ⟨ho, hl, ?_⟩
  split at hm <;> omega

theorem TurnedDown.not_stored {res : Except Fault (Nat × World)} {r : Nat} {set : FieldSet}
    (h : TurnedDown w res) (hl : AList.lookup n w.fieldJS = none) (hr : res = .ok (r, v)) :
    ¬ Idle (w.addField n set) v := by
  intro hi
  obtain ⟨r', v', hr', -, hi'⟩ := h
  rw [hr] at hr'
  cases hr'
  have hsame : w.fieldJS.insert n w.next = w.fieldJS := hi.fieldJS.symm.trans hi'.fieldJS
  have hlook := AList.lookup_insert (a := n) (b := w.next) w.fieldJS
  rw [hsame, hl] at hlook
  cases hlook

/-- A mapping that is refused is treated as expected when it should be. -/
theorem TurnedDown.outcome_iff {res : Except Fault (Nat × World)} (h : TurnedDown w res) :
    FieldOutcome env w kvs res ↔ ¬ Acceptable env w kvs := by
  constructor
  · intro ho ha
    obtain ⟨r, v, set, hr, -, hi⟩ := ho.stored ha
    exact h.not_stored ha.free hr hi
  · intro ha
    exact ⟨fun hn => absurd hn ha, fun _ => h⟩

theorem fieldParseMode_refuses {t : FieldArgs}
    (h : Frames (fun _ => False) Idle (fieldNew env t.name t.offt t.len t.mask) v
      (fun r _ => r = none)) (hi : Idle w v) : TurnedDown w (fieldParseMode env .add t v) := by
  obtain ⟨r, u, hr, hu, rfl⟩ := h.exists_ok
  refine ⟨t.errCnt + 1, _, bind_eq_ok.mpr ⟨none, u, hr, bind_eq_ok.mpr ⟨(), _, rfl, rfl⟩⟩,
    Nat.succ_ne_zero _, hi.trans (hu.trans { Idle.refl u with next := Nat.le_refl _ })⟩

theorem fieldParseMode_stores {t : FieldArgs} {a : Addr} {f : Field} {u : World}
    (h : fieldNew env t.name t.offt t.len t.mask v = .ok (some a, u)) (hf : u.fields a = some f) :
    ∃ r u', fieldParseMode env .add t v = .ok (r, u') ∧ Idle u u' := by
  have hemit : Frames (fun _ => False) Idle (parseEmit t.errCnt (fieldEmit a)) u (fun _ _ => True) :=
    (parseEmit_idle (fieldEmit_idle hf)).imp (fun _ _ _ => trivial)
  obtain ⟨r, u', hr, hi, -⟩ := hemit.exists_ok
  exact ⟨r, u', bind_eq_ok.mpr ⟨some a, u, h, hr⟩, hi⟩

/-- Where the numbers read are in range, the field is stored; so they had better be the ones
given. -/
theorem fieldParseMode_copied {t : FieldArgs} {log : List Text} (h : Consistent w live)
    (ht : TextsRead kvs ⟨0, some "", 0, 0, 0⟩ t) (hname : t.name = some (nameGiven kvs))
    (hl : AList.lookup (nameGiven kvs) w.fieldJS = none) (hm : Granted 2 w.oom)
    (hc : env.nstralloc (nameGiven kvs) MAXLINELEN = .copy) :
    FieldOutcome env w kvs (fieldParseMode env .add t { w with log := log }) ↔
      (ReadInRange kvs → InGrammar kvs) := by
  have hi : Idle w { w with log := log } := { Idle.refl w with next := Nat.le_refl _ }
  have haccept : Acceptable env w kvs ↔ InGrammar kvs :=
    ⟨fun ha => ha.grammar, fun hg => ⟨hl, hc, hg⟩⟩
  by_cases hr : ReadInRange kvs
  · obtain ⟨set, hset, hgiven⟩ := hr.set
    have hnew : fieldNew env t.name t.offt t.len t.mask { w with log := log } =
        .ok (some w.next, World.addField { w with log := log } (nameGiven kvs) set) := by
      rw [hname, ht.offt, ht.len, ht.mask]
      exact fieldNew_adds hm hl hc hset
    obtain ⟨r, u, hres, hu⟩ := fieldParseMode_stores hnew (Function.update_self ..)
    have hlog : Idle (w.addField (nameGiven kvs) set)
        (World.addField { w with log := log } (nameGiven kvs) set) :=
      { Idle.refl (w.addField (nameGiven kvs) set) with next := Nat.le_refl _ }
    have hstored := hlog.trans hu
    constructor
    · intro ho _
      by_contra hg
      exact (ho.refused (fun ha => hg ha.grammar)).not_stored hl hres hstored
    · intro hg
      exact ⟨fun ha => ⟨r, u, set, hres, hgiven ha.grammar, hstored⟩,
        fun hn => absurd (haccept.mpr (hg hr)) hn⟩
  · obtain ⟨msg, hset⟩ := ReadInRange.refused hr
    have hdown : TurnedDown w (fieldParseMode env .add t { w with log := log }) := by
      refine fieldParseMode_refuses ?_ hi
      rw [hname, ht.offt, ht.len, ht.mask]
      exact fieldNew_dropped (hi.consistent h) hl hm (.inr ⟨hc, msg, hset⟩)
    rw [hdown.outcome_iff, haccept]
    exact iff_of_true (fun hg => hr hg.readInRange) (fun h => absurd h hr)

theorem FieldOutcome.ends {res : Except Fault (Nat × World)} (h : FieldOutcome env w kvs res) :
    ∃ r v, res = .ok (r, v) := by
  by_cases ha : Acceptable env w kvs
  · obtain ⟨r, v, -, hr, -⟩ := h.stored ha
    exact ⟨r, v, hr⟩
  · obtain ⟨r, v, hr, -⟩ := h.refused ha
    exact ⟨r, v, hr⟩

/-- Where the name cannot be copied nothing is as expected. -/
theorem fieldParseMode_stuck {t : FieldArgs} (hname : t.name = some n)
    (hl : AList.lookup n v.fieldJS = none) (hm : v.oom.headD false = false)
    (hs : Unnamed env v n) : ¬ FieldOutcome env w kvs (fieldParseMode env .add t v) := by
  intro h
  obtain ⟨r, u, hr⟩ := h.ends
  obtain ⟨ret, u', hnew, -⟩ := bind_eq_ok.mp hr
  rw [hname] at hnew
  exact fieldNew_unnamed hl hm hs ret u' hnew

section Conditions

variable (hk : KeepsGrammar env w kvs) (hf : ¬ Overflows kvs)
  (hl : AList.lookup (nameGiven kvs) w.fieldJS = none)
include hk hf hl

theorem KeepsGrammar.not_acceptable (hm : w.oom.headD false = true) : ¬ Acceptable env w kvs := by
  have hg : ¬ Granted 2 w.oom := by
    intro hg
    rw [(granted_succ.mp hg).1] at hm
    cases hm
  cases hk with
  | overflows h => exact absurd h hf
  | taken h => exact absurd hl h
  | starved _ h => exact h
  | truncated h _ _ | outside h _ _ | literals h _ _ => exact absurd h hg

theorem KeepsGrammar.not_unnamed (hm : w.oom.headD false = false) :
    ¬ Unnamed env w (nameGiven kvs) := by
  intro hs
  cases hk with
  | overflows h => exact hf h
  | taken h => exact h hl
  | starved h _ =>
    rw [hm] at h
    cases h
  | truncated h copy hc | outside h hc _ | literals h hc _ =>
    rcases hs.answer h with hs | hs <;> rw [hc] at hs <;> cases hs

theorem KeepsGrammar.grammar (hm : w.oom.headD false = false)
    (hc : env.nstralloc (nameGiven kvs) MAXLINELEN = .copy) (hr : ReadInRange kvs) :
    InGrammar kvs := by
  cases hk with
  | overflows h => exact absurd h hf
  | taken h => exact absurd hl h
  | starved h _ =>
    rw [hm] at h
    cases h
  | truncated _ copy h =>
    rw [hc] at h
    cases h
  | outside _ _ h => exact absurd hr h
  | literals _ _ h => exact h

end Conditions

/-- After the walk: what is expected happens exactly under these conditions. -/
theorem fieldParseMode_iff {t : FieldArgs} {log : List Text} (h : Consistent w live)
    (ht : TextsRead kvs ⟨0, some "", 0, 0, 0⟩ t) :
    FieldOutcome env w kvs (fieldParseMode env .add t { w with log := log }) ↔
      KeepsGrammar env w kvs := by
  have hi : Idle w { w with log := log } := { Idle.refl w with next := Nat.le_refl _ }
  have hname : t.name = some (nameGiven kvs) := by
    rw [ht.name, Option.or_some]
    rfl
  have hdown : Frames (fun _ => False) Idle
      (fieldNew env (some (nameGiven kvs)) t.offt t.len t.mask) { w with log := log }
      (fun r _ => r = none) → TurnedDown w (fieldParseMode env .add t { w with log := log }) := by
    intro hn
    rw [← hname] at hn
    exact fieldParseMode_refuses hn hi
  by_cases hl : AList.lookup (nameGiven kvs) w.fieldJS = none
  · cases hm : w.oom.headD false with
    | true =>
      rw [(hdown (fieldNew_starved hl hm)).outcome_iff]
      exact ⟨.starved hm, fun hk => hk.not_acceptable ht.fits hl hm⟩
    | false =>
      by_cases hs : Unnamed env w (nameGiven kvs)
      · exact iff_of_false (fieldParseMode_stuck hname hl hm hs)
          (fun hk => hk.not_unnamed ht.fits hl hm hs)
      obtain ⟨hg, hc | ⟨copy, hc⟩⟩ := named_of_not_unnamed hm hs
      · rw [fieldParseMode_copied h ht hname hl hg hc]
        constructor
        · intro hk
          by_cases hr : ReadInRange kvs
          · exact .literals hg hc (hk hr)
          · exact .outside hg hc hr
        · exact fun hk => hk.grammar ht.fits hl hm hc
      · have hdown := hdown (fieldNew_dropped (hi.consistent h) hl hg (.inl ⟨copy, hc⟩))
        refine iff_of_true (hdown.outcome_iff.mpr ?_) (.truncated hg copy hc)
        intro ha
        rw [ha.copied] at hc
        cases hc
  · have hdown := hdown (fieldNew_taken hl)
    exact iff_of_true (hdown.outcome_iff.mpr (fun ha => hl ha.free)) (.taken hl)

/-- `field_parse` keeps to its grammar exactly under these conditions. -/
theorem field_grammar_iff (h : Reachable env w) (hs : ScalarPairs doc pairs kvs) :
    FieldOutcome env w kvs (fieldParse env .add doc pairs w) ↔ KeepsGrammar env w kvs := by
  obtain ⟨live, hc⟩ := h.consistent
  obtain ⟨r, log, hr, hw⟩ := fieldWalk_texts hs ⟨0, some "", 0, 0, 0⟩ w
  have hi : Idle w { w with log := log } := { Idle.refl w with next := Nat.le_refl _ }
  cases r with
  | die t =>
    have hres : fieldParse env .add doc pairs w = .ok (t.errCnt, { w with log := log }) :=
      bind_eq_ok.mpr ⟨_, _, hr, rfl⟩
    have hdown : TurnedDown w (fieldParse env .add doc pairs w) := ⟨_, _, hres, hw.1, hi⟩
    refine hdown.outcome_iff.trans (iff_of_true ?_ (.overflows hw.2))
    exact fun ha => ha.grammar.not_overflows hw.2
  | go t =>
    have hres : fieldParse env .add doc pairs w = fieldParseMode env .add t { w with log := log } := by
      unfold fieldParse
      change (yForMap doc fieldParseKey pairs _ w).bind _ = _
      rw [hr]
      rfl
    rw [hres]
    exact fieldParseMode_iff hc hw

theorem lenField_scalars (name len : Text) :
    ScalarPairs (lenField name len) (lenFieldPairs name len) [("field", name), ("len", len)] :=
  .cons ⟨rfl, rfl⟩ (.cons ⟨rfl, rfl⟩ .nil)

theorem field_grammar_len :
    FieldOutcome .sample (World.start [] [] []) [("field", "x"), ("len", "0x10")]
        (fieldParse .sample .add (lenField "x" "0x10") (lenFieldPairs "x" "0x10")
          (World.start [] [] [])) ↔
      KeepsGrammar .sample (World.start [] [] []) [("field", "x"), ("len", "0x10")] :=
  field_grammar_iff (reachable_start [] [] []) (lenField_scalars "x" "0x10")

theorem letters_not_literal (i : Int) : ¬ Literal "abc".toList i := by
  intro h
  obtain ⟨n, hn⟩ := h.unsigned (fun _ _ => Numeral.startsDigit)
  obtain ⟨c, rest, hc, hd⟩ := hn.startsDigit
  obtain ⟨rfl, -⟩ := List.cons.inj (show 'a' :: ['b', 'c'] = c :: rest from hc)
  exact absurd hd (by decide)

/-- `abc` is taken for a length of 0. -/
theorem letters_stored :
    ¬ ∀ (env : Env) (w : World) (doc : Document) (pairs : Pairs doc) (kvs : List (Text × Text)),
      Reachable env w → ScalarPairs doc pairs kvs →
      FieldOutcome env w kvs (fieldParse env .add doc pairs w) := by
  intro h
  have hone := h .sample (World.start [] [] []) _ _ _ (reachable_start [] [] [])
    (lenField_scalars "x" "abc")
  have hnot : ¬ Acceptable .sample (World.start [] [] []) [("field", "x"), ("len", "abc")] := by
    intro ha
    obtain ⟨i, hi, -⟩ := ha.grammar.len "abc" (by simp [given])
    exact letters_not_literal i hi
  obtain ⟨r, v, hr, hne, -⟩ := hone.refused hnot
  cases hr
  exact hne rfl

end Outcome

end Xdpacket
