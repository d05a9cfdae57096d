import Xdpacket.Proofs.Server

namespace Xdpacket

variable {E : Fault → Prop} {env : Env} {load : Bytes → Option Document} {given : List Nat}
  {s t : Server}

section Turns

theorem readLoop_nil (p : Parse) (reallocs : List Bool) :
    (∃ q, readLoop p [] reallocs = .blocked q) ∨
      ∃ q input, readLoop p [] reallocs = .die q input ∧ input.reads = [] := by
  unfold readLoop
  split
  · rename_i q input hg
    have hr := (growBuf_input p ⟨[], reallocs⟩).1
    rw [hg] at hr
    exact .inr ⟨q, input, rfl, hr⟩
  · rename_i q input hg
    exact .inl ⟨q, rfl⟩

/-- What a stream yields is what the next callback hands over, then what it yields after it. -/
theorem parseRun_turn (p : Parse) (input : Input) :
    parseRun p input = (parseCallback p input).calls ++
      if (parseCallback p input).ret = some 0 then
        parseRun (parseCallback p input).parse (parseCallback p input).input
      else [] := by
  by_cases hr : input.reads = []
  · have hnil : parseRun p input = [] := by
      unfold parseRun
      rw [if_pos hr]
    rw [hnil]
    unfold parseCallback
    rw [hr]
    rcases readLoop_nil p input.reallocs with ⟨q, hq⟩ | ⟨q, rest, hq, hrest⟩
    · simp [hq]
    · rw [hq]
      simp only [List.nil_append, if_true]
      unfold parseRun
      rw [if_pos hrest]
  · conv_lhs => unfold parseRun
    rw [if_neg hr]
    by_cases hc : (parseCallback p input).ret = some 0
    · simp [hc]
    · simp [hc]

/-- A callback that hangs has handed nothing over. -/
theorem calls_of_hung {p : Parse} {input : Input} (h : (parseCallback p input).ret = none) :
    (parseCallback p input).calls = [] := by
  unfold parseCallback at h ⊢
  cases hl : readLoop p input.reads input.reallocs with
  | blocked q => rfl
  | die q rest => rfl
  | done res q rest =>
    rw [hl] at h
    simp only at h
    split at h
    · cases h
    · split at h <;> cases h

end Turns

section Served

/-- What was handed to `parse` for a client. -/
def Server.handed (s : Server) (n : Nat) : List Bytes :=
  (s.exchanges.filter (fun e => e.client = n)).map Exchange.doc

/-- Every client has been served what its own input asks for: all of it when its context is
gone, and what the context does not still yield when it is there. -/
structure Server.Served (s : Server) : Prop where
  connected : ∀ c ∈ s.conns, ∃ input, s.clients[c.client]? = some input ∧
    s.handed c.client ++ parseRun c.parse c.input = parseRun .new input
  gone : ∀ n input, s.clients[n]? = some input → n ∉ s.conns.map Conn.client →
    s.handed n = parseRun .new input
  known : ∀ e ∈ s.exchanges, e.client < s.clients.length

theorem Server.Served.of_handed (h : s.Served) (hconns : t.conns = s.conns)
    (hclients : t.clients = s.clients) (hhanded : ∀ n, t.handed n = s.handed n)
    (hknown : ∀ e ∈ t.exchanges, e.client < t.clients.length) : t.Served := by
  refine ⟨?_, ?_, hknown⟩
  · rw [hconns, hclients]
    intro c hc
    rw [hhanded]
    exact h.connected c hc
  · rw [hconns, hclients]
    intro n input hn hno
    rw [hhanded]
    exact h.gone n input hn hno

theorem Server.Served.congr (h : s.Served) (hconns : t.conns = s.conns)
    (hclients : t.clients = s.clients) (hex : t.exchanges = s.exchanges) : t.Served := by
  refine h.of_handed hconns hclients ?_ ?_
  · intro n
    rw [Server.handed, Server.handed, hex]
  · rw [hclients, hex]
    exact h.known

/-- A client that comes has been served nothing. -/
theorem Server.Served.track (h : s.Served) (fdin fdout : Nat) (input : Input) :
    (s.track fdin fdout input).Served := by
  have hnone : s.handed s.clients.length = [] := by
    rw [Server.handed, List.map_eq_nil_iff, List.filter_eq_nil_iff]
    intro e he
    exact fun heq => absurd (of_decide_eq_true heq) (h.known e he).ne
  have hold : ∀ (n : Nat) (i : Input), s.clients[n]? = some i →
      (s.clients ++ [input])[n]? = some i := by
    intro n i hn
    rw [List.getElem?_append_left (List.getElem?_eq_some_iff.mp hn).1, hn]
  refine ⟨?_, ?_, ?_⟩
  · intro c hc
    rcases List.mem_append.mp hc with hc | hc
    · obtain ⟨i, hi, he⟩ := h.connected c hc
      exact ⟨i, hold _ _ hi, he⟩
    · rw [List.mem_singleton.mp hc]
      refine ⟨input, by simp [Server.track], ?_⟩
      change s.handed s.clients.length ++ _ = _
      rw [hnone, List.nil_append]
  · intro n i hn hno
    simp only [Server.track, List.map_append, List.mem_append, not_or] at hn hno
    have hne : n ≠ s.clients.length := by simpa using hno.2
    have hlt := (List.getElem?_eq_some_iff.mp hn).1
    rw [List.length_append, List.length_singleton] at hlt
    rw [List.getElem?_append_left (by omega)] at hn
    exact h.gone n i hn hno.1
  · intro e he
    have := h.known e he
    simp only [Server.track, List.length_append]
    omega

/-- A program in the world serves no client. -/
theorem Server.Served.inWorld (h : s.Served) (x : M α) :
    Runs (fun _ => True) (inWorld x) s (fun _ t => t.Served ∧ t.conns = s.conns) := by
  rw [inWorld_iff]
  exact Runs.any.imp (fun _ _ _ => ⟨h.congr rfl rfl rfl, rfl⟩)

theorem netsockCallback_served {input : Input} (h : s.Served) :
    Runs (fun _ => True) (netsockCallback input) s (fun _ t => t.Served) := by
  have herr : ∀ {t : Server} {msg : Text}, t.Served → Runs (fun _ => True)
      (Xdpacket.inWorld (nbErr msg) >>= fun _ => pure 1 : S Nat) t (fun _ t => t.Served) :=
    fun ht => (ht.inWorld _).bind (fun _ _ hu => hu.1)
  unfold netsockCallback
  refine (h.inWorld _).bind ?_
  intro r t ht
  obtain ⟨ht, -⟩ := ht
  cases r with
  | none => exact herr ht
  | some fd =>
    have hclose : ∀ {t : Server}, t.Served → Runs (fun _ => True)
        (Xdpacket.inWorld (nbErr "") >>= fun _ => Xdpacket.inWorld (closeFd fd) >>= fun _ =>
          pure 1 : S Nat) t (fun _ t => t.Served) :=
      fun ht => (ht.inWorld _).bind (fun _ _ hu => (hu.1.inWorld _).bind (fun _ _ hv => hv.1))
    simp only
    split
    · exact herr ht
    refine (ht.inWorld _).bind ?_
    intro ok u hu
    obtain ⟨hu, -⟩ := hu
    cases ok with
    | false => exact hclose hu
    | true =>
      refine (hu.inWorld _).bind ?_
      intro ok v hv
      obtain ⟨hv, -⟩ := hv
      cases ok with
      | false => exact hclose hv
      | true => exact hv.track fd fd input

/-- The documents of a callback are those of its client. -/
theorem parseAll_handed {c : Conn} {bufs : List Bytes} :
    Runs (fun _ => True) (parseAll env load c bufs) s (fun _ t => t.conns = s.conns ∧
      t.clients = s.clients ∧ (∀ n, t.handed n = s.handed n ++ if n = c.client then bufs else []) ∧
      ∀ e ∈ t.exchanges, e ∈ s.exchanges ∨ e.client = c.client) := by
  induction bufs generalizing s with
  | nil => exact ⟨rfl, rfl, fun n => by simp, fun e he => .inl he⟩
  | cons buf bufs ih =>
    unfold parseAll
    rw [Runs.bind_iff, inWorld_iff]
    refine Runs.any.imp ?_
    intro reply w _
    rw [Runs.bind_iff, Runs.modify_iff]
    refine ih.imp ?_
    intro _ t ht
    obtain ⟨hconns, hclients, hhanded, hfrom⟩ := ht
    refine ⟨hconns, hclients, ?_, ?_⟩
    · intro n
      rw [hhanded n]
      by_cases hn : n = c.client
      · subst hn
        simp [Server.handed, List.filter_append]
      · simp [Server.handed, List.filter_append, hn, Ne.symm hn]
    · intro e he
      rcases hfrom e he with he | he
      · rcases List.mem_append.mp he with he | he
        · exact .inl he
        · exact .inr (by rw [List.mem_singleton.mp he])
      · exact .inr he

/-- `parse_callback` goes on where the context was. -/
theorem readable_served {c : Conn} (h : s.Served) (ha : s.Apart given) (hc : c ∈ s.conns) :
    Runs (fun _ => True) (readable env load c) s (fun _ t => t.Served) := by
  unfold readable
  refine parseAll_handed.bind ?_
  intro _ t ht
  obtain ⟨hconns, hclients, hhanded, hfrom⟩ := ht
  have hknown : ∀ e ∈ t.exchanges, e.client < t.clients.length := by
    intro e he
    rw [hclients]
    rcases hfrom e he with he | he
    · exact h.known e he
    · rw [he]
      exact ha.known c hc
  have hother : ∀ n, n ≠ c.client → t.handed n = s.handed n := by
    intro n hn
    rw [hhanded, if_neg hn, List.append_nil]
  have hown := hhanded c.client
  rw [if_pos rfl] at hown
  obtain ⟨input, hinput, hserved⟩ := h.connected c hc
  rw [parseRun_turn, ← List.append_assoc, ← hown] at hserved
  have hmem : c.client ∈ s.conns.map Conn.client := List.mem_map_of_mem hc
  split
  · rename_i hret
    rw [calls_of_hung hret, List.append_nil] at hown
    refine h.of_handed hconns hclients (fun n => ?_) hknown
    by_cases hn : n = c.client
    · rw [hn]
      exact hown
    · exact hother n hn
  · rename_i hret
    rw [if_pos hret] at hserved
    refine ⟨?_, ?_, hknown⟩
    · intro d hd
      simp only [Server.advance, hconns] at hd
      obtain ⟨e, he, rfl⟩ := List.mem_map.mp hd
      change ∃ input, t.clients[_]? = some input ∧ t.handed _ ++ _ = _
      rw [hclients]
      by_cases hec : e.client = c.client
      · rw [if_pos hec]
        exact ⟨input, hec ▸ hinput, by rw [hec]; exact hserved⟩
      · rw [if_neg hec, hother _ hec]
        exact h.connected e he
    · intro n i hn hno
      rw [t.advance_clients, hconns] at hno
      change t.handed n = _
      rw [hother n (fun he => hno (he ▸ hmem))]
      exact h.gone n i (hclients ▸ hn) hno
  · rename_i hret
    rw [if_neg (by rw [hret]; simpa using ‹_›), List.append_nil] at hserved
    rw [Runs.bind_iff, Runs.modify_iff, inWorld_iff]
    refine Runs.any.imp (fun _ w _ => ⟨?_, ?_, hknown⟩)
    · intro d hd
      simp only [Server.drop, hconns] at hd
      obtain ⟨hd, hdc⟩ := List.mem_filter.mp hd
      change ∃ input, t.clients[_]? = some input ∧ t.handed _ ++ _ = _
      rw [hclients, hother _ (of_decide_eq_true hdc)]
      exact h.connected d hd
    · intro n i hn hno
      change t.clients[n]? = some i at hn
      change t.handed n = _
      rw [hclients] at hn
      by_cases hnc : n = c.client
      · rw [hnc, hinput, Option.some.injEq] at hn
        rw [hnc, ← hn]
        exact hserved
      · rw [hother n hnc]
        refine h.gone n i hn (fun hm => hno ?_)
        obtain ⟨d, hd, rfl⟩ := List.mem_map.mp hm
        simp only [Server.drop, hconns]
        exact List.mem_map_of_mem (List.mem_filter.mpr ⟨hd, decide_eq_true hnc⟩)

theorem serve_served {ready : Ready} (h : s.Served) (ha : s.Apart given) :
    Runs (fun _ => True) (serve env load ready) s (fun _ t => t.Served) := by
  unfold serve
  rw [Runs.bind_iff, Runs.get_iff]
  split
  · exact h
  cases ready with
  | client listener input =>
    simp only
    split
    · refine (netsockCallback_served h).bind ?_
      intro rc t ht
      split
      · rw [Runs.bind_iff, Runs.modify_iff]
        have hu : (t.unlisten listener).Served := ht.congr rfl rfl rfl
        exact (hu.inWorld _).imp (fun _ _ hv => hv.1)
      · exact ht
    · exact h
  | input fd =>
    simp only
    split
    · exact h
    · rename_i c hf
      exact readable_served h ha (List.mem_of_find?_eq_some hf)
  | packet iface recv => exact (h.inWorld _).imp (fun _ _ hv => hv.1)

theorem serveAll_served {readies : List Ready} (h : s.Served) (ho : s.Owned given) :
    Runs NoDangle (serveAll env load readies) s (fun _ t => t.Served) := by
  induction readies generalizing s with
  | nil => exact h
  | cons ready readies ih =>
    unfold serveAll
    refine ((serve_owned ho).and (serve_served h ho.toApart)).bind ?_
    intro _ t ht
    exact ih ht.2 ht.1

end Served

section Setup

theorem setup_fails {msg : Text} (h : s.Served) :
    Runs (fun _ => True) (inWorld (nbErr msg) >>= fun _ => pure false : S Bool) s
      (fun _ t => t.Served) :=
  (h.inWorld _).bind (fun _ _ hu => hu.1)

theorem netsockListen_served (h : s.Served) :
    Runs (fun _ => True) netsockListen s (fun _ t => t.Served) := by
  unfold netsockListen
  refine (h.inWorld _).bind ?_
  intro r t ht
  obtain ⟨ht, -⟩ := ht
  cases r with
  | none => exact setup_fails ht
  | some fd =>
    simp only
    split
    · exact setup_fails ht
    refine (ht.inWorld _).bind ?_
    intro ok u hu
    cases ok with
    | false => exact setup_fails hu.1
    | true => exact hu.1.congr rfl rfl rfl

theorem netsockEach_served {n : Nat} (h : s.Served) :
    Runs (fun _ => True) (netsockEach n) s (fun _ t => t.Served) := by
  induction n generalizing s with
  | zero => exact h
  | succ n ih =>
    unfold netsockEach
    refine (netsockListen_served h).bind ?_
    intro ok t ht
    cases ok with
    | true => exact ih ht
    | false => exact ht

theorem netsockAll_served {options : List (Option Nat)} (h : s.Served) :
    Runs (fun _ => True) (netsockAll options) s (fun _ t => t.Served) := by
  induction options generalizing s with
  | nil => exact h
  | cons addresses rest ih =>
    have hone : Runs (fun _ => True) (netsock addresses) s (fun _ t => t.Served) := by
      cases addresses with
      | none => exact setup_fails h
      | some n => exact netsockEach_served h
    unfold netsockAll
    refine hone.bind ?_
    intro ok t ht
    cases ok with
    | true => exact ih ht
    | false => exact ht

theorem setupParse_served {stdin : Input} {options : List (Option Nat)} {fdin fdout : Option Nat}
    (h : s.Served) :
    Runs (fun _ => True) (setupParse stdin options fdin fdout) s (fun _ t => t.Served) := by
  unfold setupParse
  refine (h.inWorld _).bind ?_
  intro ok t ht
  split
  · refine (ht.1.inWorld _).bind ?_
    intro ok u hu
    cases ok with
    | false => exact setup_fails hu.1
    | true =>
      simp only [Bool.not_true, Bool.false_eq_true, if_false]
      rw [Runs.bind_iff, Runs.modify_iff]
      exact netsockAll_served (hu.1.track _ _ stdin)
  · exact setup_fails ht.1

theorem setup_served {stdin : Input} {options : List (Option Nat)} (h : s.Served) :
    Runs (fun _ => True) (setup stdin options) s (fun _ t => t.Served) := by
  unfold setup
  refine (h.inWorld _).bind ?_
  intro ok t ht
  cases ok with
  | false => exact setup_fails ht.1
  | true =>
    refine (ht.1.inWorld _).bind ?_
    intro r u hu
    cases r with
    | none => exact setup_fails hu.1
    | some fd =>
      simp only
      rw [Runs.bind_iff, Runs.modify_iff]
      have hv : Server.Served { u with eptk := some fd } := hu.1.congr rfl rfl rfl
      refine (hv.inWorld _).bind ?_
      intro fdin v₁ hv₁
      refine (hv₁.1.inWorld _).bind ?_
      intro fdout v₂ hv₂
      exact setupParse_served hv₂.1

/-- However clients and packets interleave, every client is served as if it were alone. -/
theorem clients_served (env : Env) (load : Bytes → Option Document) (given : List Nat)
    (oom sys : List Bool) (stdin : Input) (options : List (Option Nat)) (readies : List Ready) :
    Runs NoDangle (mainBody env load stdin options readies) (Server.start given oom sys)
      (fun _ t => t.Served) := by
  have hstart : (Server.start given oom sys).Served := by
    refine ⟨?_, ?_, ?_⟩
    · intro c hc
      cases hc
    · intro n input hn
      cases hn
    · intro e he
      cases he
  unfold mainBody
  refine ((setup_owned given oom sys stdin options).and (setup_served hstart)).bind ?_
  intro ok t ht
  obtain ⟨⟨leaked, ho, -⟩, ht⟩ := ht
  cases ok with
  | false => exact ht
  | true => exact (serveAll_served ht ho).bind (fun _ _ hu => hu)

end Setup

end Xdpacket
