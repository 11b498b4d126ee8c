import Picat.Token.TextStep

/-!
# The two tokenizers agree

`GetTokenString` gives the tokens that `GetToken` gives, with an end of clause for every line end between tokens and for
the end of the file.

* `stringReading_eq` : whole sequences.
-/

namespace Picat
open Simulation List

/-- What `GetTokenString` gives where `GetToken` gives `o`. -/
def Outcome.inString : Outcome → Outcome
  | .token t => .token (if t = .eofch then .endcl else t)
  | o => o

theorem Outcome.inString_token {t : Token} (ht : t ≠ .eofch) : (Outcome.token t).inString = .token t :=
  congrArg Outcome.token (if_neg ht)

/-- What the calls of `GetTokenString` give for a text of which the calls of `GetToken` are given. -/
def inString (l : List (Nat × Outcome)) : List Outcome :=
  l.flatMap fun o => List.replicate o.1 (.token .endcl) ++ [o.2.inString]

variable (fl : Flags) {k : Nat} {c c' : Int}

/-! ## Calls -/

inductive CallRel (r : Call (List UInt8)) (r' : Call StringIn) : Prop
  | trap (h : r.result = .error .buffer) (h' : r'.result = .error .buffer)
  | error {s : ScanState (List UInt8)} {s' : ScanState StringIn} (h : r.result = .ok (none, s))
      (h' : r'.result = .ok (none, s'))
  | token {t t' : Token} {s : ScanState (List UInt8)} {s' : ScanState StringIn} (h : r.result = .ok (some t, s))
      (h' : r'.result = .ok (some t', s')) (hdone : stringLink.Done t t' s s')

/-- What a call for a string gives, and at most `k` calls after it. -/
def stringTail (k : Nat) (r : Call StringIn) : List Outcome :=
  (r.outcomes (reading stringReader fl k)).map Prod.snd

theorem stringGetc_length {s t : ScanState StringIn} (h : stringGetc s = .ok (c, t)) (hc : c ≠ 0) :
    t.source.rest.length + 1 = s.source.rest.length := by
  cases hpast : s.source.past with
  | true =>
    obtain ⟨⟨before, rest, past⟩, lastc, e⟩ := s
    cases hpast
    exact nomatch h
  | false =>
    cases hrest : s.source.rest with
    | nil =>
      have hrun := (stringGetc_nil hrest hpast).symm.trans h
      rw [Except.ok.injEq, Prod.mk.injEq] at hrun
      exact absurd hrun.1.symm hc
    | cons b rest =>
      have hrun := (stringGetc_cons hrest hpast).symm.trans h
      rw [Except.ok.injEq, Prod.mk.injEq] at hrun
      rw [← hrun.2]
      rfl

theorem getToken_blank {s t : ScanState StringIn} (hlast : s.lastc = ch ' ') (hcalm : s.bpException = none)
    (hrun : stringGetc s = .ok (c, t)) (hlast' : t.lastc = ch ' ') :
    getToken stringReader fl s = getTokenFrom stringReader fl (s.source.rest.length + 2) c 0 t := by
  have hs : { s with bpException := none } = s := by
    obtain ⟨source, lastc, e⟩ := s
    cases hcalm
    rfl
  have hpass : scanToken stringReader fl (ch ' ') s = .ok (.start c, t) := by
    have hspace : scanToken stringReader fl (ch ' ') s =
        stringGetc s >>= fun x => .ok (.start x.1, { x.2 with lastc := ch ' ' }) := rfl
    have ht : { t with lastc := ch ' ' } = t := by
      obtain ⟨source, lastc, e⟩ := t
      cases hlast'
      rfl
    rw [hspace, hrun]
    exact congrArg (fun u => Except.ok (Pass.start c, u)) ht
  have hcall : getTokenFrom stringReader fl (s.source.rest.length + 2 + 1) (ch ' ') 0 s =
      getTokenFrom stringReader fl (s.source.rest.length + 2) c 0 t := by
    rw [getTokenFrom, hpass]
  unfold getToken
  rw [hs, hlast]
  exact hcall

theorem stringTail_endcl {s : ScanState StringIn} (hcalm : s.bpException = none) (k : Nat) :
    stringTail fl (k + 1) ⟨0, .ok (some .endcl, s)⟩ = .token .endcl :: stringTail fl k (getToken stringReader fl s) := by
  unfold stringTail
  rw [Call.outcomes_token rfl hcalm, if_neg (by decide)]
  rfl

theorem start_tight {s s'' : ScanState StringIn} {t : ScanState (List UInt8)} (hget : stringGetc s = .ok (c', s''))
    (h : stringLink.Start comparedSource.room k c c' t s'') :
    ∃ j ≤ k, j ≤ s.source.rest.length ∧ stringLink.Start comparedSource.room j c c' t s'' := by
  by_cases hc : c = -1
  · exact ⟨0, Nat.zero_le _, Nat.zero_le _, h.1, h.2.1, fun hne => absurd hc hne⟩
  · obtain ⟨hchar, hrel, hroom⟩ := h.2.2 hc
    have hlen := stringGetc_length hget (mt (StringChar.eof_iff h.1).2 hc)
    have hsource : comparedSource.room t.source = s''.source.rest.length := sourceStep_string.room hrel.source
    refine ⟨comparedSource.room t.source + ahead c, hroom, ?_, Link.Look.start ⟨hchar, hrel, le_refl _⟩⟩
    rw [ahead_of_ne hc]
    omega

/-- A call for a file, and as many calls for a string as there are line ends, and one. -/
theorem getTokenFrom_string : ∀ (fuel : Nat) {fuel' k : Nat}, k < fuel → k < fuel' →
    ∀ {c c' : Int} {s : ScanState (List UInt8)} {s' : ScanState StringIn},
      stringLink.Start comparedSource.room k c c' s s' → ∀ m : Nat,
        (getTokenFrom comparedReader fl fuel c m s).result = .error .outside ∨
        ∃ n r', (getTokenFrom comparedReader fl fuel c m s).eolns = m + n ∧
          CallRel (getTokenFrom comparedReader fl fuel c m s) r' ∧
          ∀ K, stringTail fl (n + K) (getTokenFrom stringReader fl fuel' c' 0 s') =
            List.replicate n (.token .endcl) ++ stringTail fl K r' := by
  intro fuel
  induction fuel with
  | zero => exact fun hk => absurd hk (Nat.not_lt_zero _)
  | succ fuel ih =>
    intro fuel' k hk hk' c c' s s' hstart m
    obtain ⟨fuel', rfl⟩ := Nat.exists_eq_succ_of_ne_zero (Nat.ne_of_gt (Nat.lt_of_le_of_lt (Nat.zero_le k) hk'))
    have hpass := (inStep_string fl).scanToken_sim hstart.1 s s' hstart
    rw [getTokenFrom, getTokenFrom]
    cases hs : scanToken comparedReader fl c s with
    | error e =>
      rw [hs] at hpass
      rcases hpass with hout | ⟨hbuf, hs'⟩
      · exact .inl (by rw [hout])
      · rw [hs', hbuf]
        exact .inr ⟨0, ⟨0, .error .buffer⟩, rfl, .trap rfl rfl, fun K => by rw [Nat.zero_add]; rfl⟩
    | ok r =>
      obtain ⟨p, t⟩ := r
      rw [hs] at hpass
      obtain ⟨p', t', hs', hend⟩ := hpass
      rw [hs']
      have hlt : (∀ t, p ≠ .token t) → k - 1 < fuel ∧ k - 1 < fuel' := by
        intro hp
        have hc : c ≠ -1 := by
          rintro rfl
          have heof : scanToken comparedReader fl (-1) s = .ok (.token .eofch, { s with lastc := ch ' ' }) := rfl
          cases heof.symm.trans hs
          exact hp _ rfl
        have hpos := ((hstart.2.2 hc).next hc).1
        omega
      cases p with
      | start c1 =>
        cases p' with
        | start c1' => exact ih (hlt (by nofun)).1 (hlt (by nofun)).2 hend m
        | eoln _ => exact hend.elim
        | token _ => exact hend.elim
        | error => exact hend.elim
      | eoln c1 =>
        obtain ⟨rfl, hlast, hcalm, c1', t1', hget, hlast1, hstart1⟩ := hend
        obtain ⟨j, hj, hj', hstart1⟩ := start_tight hget hstart1
        have hlt := (hlt (by nofun)).1
        apply (ih (by omega) (show j < t'.source.rest.length + 2 by omega) hstart1 (m + 1)).imp_right
        intro h
        obtain ⟨n, r', heolns, hrel, htail⟩ := h
        refine ⟨n + 1, r', by rw [heolns]; omega, hrel, fun K => ?_⟩
        rw [Nat.add_right_comm, stringTail_endcl fl hcalm, getToken_blank fl hlast hcalm hget hlast1, htail,
          replicate_succ, cons_append]
      | token t0 =>
        cases p' with
        | token t0' =>
          exact .inr ⟨0, ⟨0, .ok (some t0', t')⟩, rfl, .token rfl rfl hend, fun K => by rw [Nat.zero_add]; rfl⟩
        | start _ => exact hend.elim
        | eoln _ => exact hend.elim
        | error => exact hend.elim
      | error =>
        cases p' with
        | error => exact .inr ⟨0, ⟨0, .ok (none, t')⟩, rfl, .error rfl rfl, fun K => by rw [Nat.zero_add]; rfl⟩
        | start _ => exact hend.elim
        | eoln _ => exact hend.elim
        | token _ => exact hend.elim

/-! ## Sequences -/

theorem inString_cons (eolns : Nat) (o : Outcome) (l : List (Nat × Outcome)) :
    inString ((eolns, o) :: l) = List.replicate eolns (.token .endcl) ++ (o.inString :: inString l) := by
  unfold inString
  rw [flatMap_cons, append_assoc]
  rfl

theorem reading_of_tail {s : ScanState StringIn} {n K : Nat} {r : Call StringIn} {l : List Outcome}
    (htail : ∀ K, stringTail fl (n + K) (getToken stringReader fl s) =
      List.replicate n (.token .endcl) ++ stringTail fl K r)
    (hlen : l.length = K + 1) (hl : stringTail fl K r = l) :
    (reading stringReader fl (List.replicate n (Outcome.token .endcl) ++ l).length s).map Prod.snd =
      List.replicate n (.token .endcl) ++ l := by
  rw [length_append, length_replicate, hlen, ← Nat.add_assoc]
  exact (htail K).trans (by rw [hl])

theorem getToken_string {s : ScanState (List UInt8)} {s' : ScanState StringIn} (h : stringLink.Rel false s s') :
    (getToken comparedReader fl s).result = .error .outside ∨
    ∃ n r', (getToken comparedReader fl s).eolns = n ∧ CallRel (getToken comparedReader fl s) r' ∧
      ∀ K, stringTail fl (n + K) (getToken stringReader fl s') =
        List.replicate n (.token .endcl) ++ stringTail fl K r' := by
  have hs : { s with bpException := none } = s := by
    obtain ⟨source, lastc, e⟩ := s
    cases h.calm.1
    rfl
  have hs' : { s' with bpException := none } = s' := by
    obtain ⟨source, lastc, e⟩ := s'
    cases h.calm.2
    rfl
  have hstart : stringLink.Start comparedSource.room (comparedSource.room s.source + 1) s.lastc s'.lastc s s' :=
    Link.Look.start ⟨h.lastc, h, Nat.add_le_add_left (ahead_le _) _⟩
  have hroom : comparedSource.room s.source = stringSource.room s'.source := sourceStep_string.room h.source
  have hcall := getTokenFrom_string fl (comparedReader.room s.source + 3)
    (show comparedSource.room s.source + 1 < comparedSource.room s.source + 3 by omega)
    (show comparedSource.room s.source + 1 < stringSource.room s'.source + 3 by omega) hstart 0
  unfold getToken
  rw [hs, hs']
  refine hcall.imp_right fun ⟨n, r', heolns, hrest⟩ => ⟨n, r', ?_, hrest⟩
  rw [heolns, Nat.zero_add]

def Agrees (k : Nat) (s : ScanState (List UInt8)) (s' : ScanState StringIn) : Prop :=
  (∀ o ∈ reading comparedReader fl k s, o.2 ≠ .trap .outside) →
    (reading stringReader fl (inString (reading comparedReader fl k s)).length s').map Prod.snd =
      inString (reading comparedReader fl k s) ∧
    ∀ o ∈ reading comparedReader fl k s, ∀ e, o.2 = .trap e → e = .buffer

theorem outcomes_string {r : Call (List UInt8)} {r' : Call StringIn} (hrel : CallRel r r')
    (ih : ∀ {s s'}, stringLink.Rel false s s' → Agrees fl k s s')
    (hout : ∀ o ∈ r.outcomes (reading comparedReader fl k), o.2 ≠ .trap .outside) :
    ∃ o l, r.outcomes (reading comparedReader fl k) = (r.eolns, o) :: l ∧
      stringTail fl (inString l).length r' = o.inString :: inString l ∧
      ∀ o ∈ r.outcomes (reading comparedReader fl k), ∀ e, o.2 = .trap e → e = .buffer := by
  have hsingle : ∀ {o : Outcome}, (∀ e, o = .trap e → e = .buffer) →
      ∀ x ∈ [(r.eolns, o)], ∀ e, x.2 = .trap e → e = .buffer := by
    intro o ho x hx
    rwa [mem_singleton.1 hx]
  unfold stringTail
  rcases hrel with ⟨h, h'⟩ | ⟨h, h'⟩ | ⟨h, h', hraised | ⟨hcalm, ⟨rfl, rfl⟩ | ⟨hne, rfl, hrel⟩⟩⟩
  · rw [Call.outcomes_trap h]
    exact ⟨_, [], rfl, by rw [Call.outcomes_trap h']; rfl, hsingle fun e he => by cases he; rfl⟩
  · rw [Call.outcomes_error h]
    exact ⟨_, [], rfl, by rw [Call.outcomes_error h']; rfl, hsingle nofun⟩
  · rw [Call.outcomes_raised h hraised.1]
    exact ⟨_, [], rfl, by rw [Call.outcomes_raised h' hraised.2]; rfl, hsingle nofun⟩
  · rw [Call.outcomes_token h hcalm.1]
    exact ⟨_, [], rfl, by rw [Call.outcomes_token h' hcalm.2]; rfl, hsingle nofun⟩
  · rw [Call.outcomes_token h hcalm.1, if_neg hne] at hout ⊢
    obtain ⟨hread, htrap⟩ := ih hrel fun o ho => hout o (mem_cons_of_mem _ ho)
    refine ⟨_, _, rfl, ?_, fun o ho => ?_⟩
    · rw [Call.outcomes_token h' hcalm.2, if_neg hne, map_cons, hread, Outcome.inString_token hne]
    · rcases mem_cons.1 ho with rfl | ho
      · exact nofun
      · exact htrap o ho

theorem reading_string : ∀ (k : Nat) {s : ScanState (List UInt8)} {s' : ScanState StringIn},
    stringLink.Rel false s s' → Agrees fl k s s' := by
  intro k
  induction k with
  | zero => exact fun _ _ => ⟨rfl, fun o ho => absurd ho not_mem_nil⟩
  | succ k ih =>
    intro s s' h hout
    unfold reading at hout
    rcases getToken_string fl h with hcut | ⟨n, r', rfl, hrel, htail⟩
    · rw [Call.outcomes_trap hcut] at hout
      exact absurd rfl (hout _ (mem_singleton.2 rfl))
    · obtain ⟨o, l, hl, hstring, htrap⟩ := outcomes_string fl hrel ih hout
      have hread : reading comparedReader fl (k + 1) s = ((getToken comparedReader fl s).eolns, o) :: l := hl
      refine ⟨?_, htrap⟩
      rw [hread, inString_cons]
      exact reading_of_tail fl htail length_cons hstring

/-- Among the first `k` tokens of a file there is none for which the tokenizers are not compared. -/
def Comparable (k : Nat) (text : List UInt8) : Prop :=
  ∀ o ∈ reading comparedReader fl k (fileStart text), o.2 ≠ .trap .outside

instance (k : Nat) (text : List UInt8) : Decidable (Comparable fl k text) := by unfold Comparable; infer_instance

/-- A text without NUL gives the same tokens in a file and in a string, and errors at the same tokens; for a line end
between tokens and for the end of the text the string has an end of clause. -/
theorem stringReading_eq {text : List UInt8} (hnul : (0 : UInt8) ∉ text) (k : Nat) (hk : Comparable fl k text) :
    stringReading fl (inString (fileReading fl k text)).length text = inString (fileReading fl k text) ∧
    ∀ o ∈ fileReading fl k text, ∀ e, o.2 = .trap e → e = .buffer := by
  have hread : reading comparedReader fl k (fileStart text) = fileReading fl k text :=
    cutReader_compared.reading fl k _ hk
  have hspace : StringChar (ch ' ') (ch ' ') := .inl ⟨by decide, by decide, rfl⟩
  have hstart : stringLink.Rel false (fileStart text) (stringStart text) := ⟨⟨rfl, rfl, hnul⟩, hspace, rfl, rfl⟩
  have hagree := reading_string fl k hstart hk
  rwa [hread] at hagree

/-- `p('a''é\n',0x1F, "b")`, a line comment and `:- Y=1.5, 16'ff..` on a second line. -/
theorem stringReading_eq_clause : let text : List UInt8 :=
      [112, 40, 39, 97, 39, 39, 195, 169, 92, 110, 39, 44, 48, 120, 49, 70, 44, 32, 34, 98, 34, 41, 32, 37, 32, 99, 10,
        58, 45, 32, 10, 89, 61, 49, 46, 53, 44, 32, 49, 54, 39, 102, 102, 46, 46]
    stringReading ⟨1, 1⟩ (inString (fileReading ⟨1, 1⟩ 20 text)).length text = inString (fileReading ⟨1, 1⟩ 20 text) ∧
    ∀ o ∈ fileReading ⟨1, 1⟩ 20 text, ∀ e, o.2 = .trap e → e = .buffer :=
  stringReading_eq ⟨1, 1⟩ (by decide) 20 (by decide +kernel)

/-- Two names on two lines: the string has an end of clause between them. -/
theorem fileReading_ne_stringReading :
    (fileReading ⟨1, 1⟩ 3 [97, 10, 98]).map Prod.snd ≠ stringReading ⟨1, 1⟩ 3 [97, 10, 98] := by
  decide +kernel

end Picat
