import PatchTyping.TypeTextParsing
import PatchTyping.Proofs.ScannedPieces

/-!
# The grammar of type texts

    type        := payload ':' unit ('@' cardinality)? ('!' temporality)?
    payload     := WORD | '?' WORD
    unit        := WORD | '?' WORD
    cardinality := 'zero' | 'one' | 'many' '(' WORD ')' | '?' WORD
    temporality := 'continuous' | 'discrete'

A phrase relates the tokens it consists of to what they mean. The reader never looks back, so each part of it
is compared with its phrase on its own: it takes the tokens of one phrase and leaves the rest.
-/

namespace PatchTyping

theorem Payload.ofName?_eq_some_iff {n : String} {p : Payload} : ofName? n = some p ↔ p.name = n := by
  constructor
  · intro h
    simpa using List.find?_some h
  · rintro rfl
    exact ofName?_name p

theorem UnitTag.ofName?_eq_some_iff {n : String} {u : UnitTag} : ofName? n = some u ↔ u.name = n := by
  constructor
  · intro h
    simpa using List.find?_some h
  · rintro rfl
    exact ofName?_name u

namespace TypeText

/-! ## Phrases -/

/-- A variable, or a value by its name. -/
inductive AxisPhrase {α : Type} (name : α → String) : List Token → Axis α → Prop
  | inst (a : α) : AxisPhrase name [.word (name a)] (.inst a)
  | var (n : String) : AxisPhrase name [.question, .word n] (.var n)

inductive CardinalityPhrase : List Token → Axis Cardinality → Prop
  | zero : CardinalityPhrase [.word "zero"] (.inst .zero)
  | one : CardinalityPhrase [.word "one"] (.inst .one)
  | many (d : String) :
      CardinalityPhrase [.word "many", .leftParen, .word d, .rightParen] (.inst (.many d))
  | var (n : String) : CardinalityPhrase [.question, .word n] (.var n)

inductive TemporalityPhrase : List Token → Temporality → Prop
  | continuous : TemporalityPhrase [.word "continuous"] .continuous
  | discrete : TemporalityPhrase [.word "discrete"] .discrete

/-- A phrase after its mark, or nothing at all, which means `omitted`. -/
inductive Suffix {α : Type} (mark : Token) (phrase : List Token → α → Prop) (omitted : α) :
    List Token → α → Prop
  | absent : Suffix mark phrase omitted [] omitted
  | present {ws : List Token} {a : α} : phrase ws a → Suffix mark phrase omitted (mark :: ws) a

abbrev CardinalitySuffix : List Token → Axis Cardinality → Prop :=
  Suffix .atSign CardinalityPhrase (.inst .one)

abbrev TemporalitySuffix : List Token → Temporality → Prop :=
  Suffix .bang TemporalityPhrase .continuous

inductive TypePhrase : List Token → PortType → Prop
  | mk {ps us cs ms : List Token} {t : PortType} :
      AxisPhrase Payload.name ps t.payload → AxisPhrase UnitTag.name us t.unit →
      CardinalitySuffix cs t.cardinality → TemporalitySuffix ms t.temporality →
      TypePhrase (ps ++ .colon :: us ++ cs ++ ms) t

/-! ## Reading one phrase -/

section

variable {α : Type} {known : String → Option α} {name : α → String} {size : Nat}
  {unknown : String → TypeTextFault} {wanted : Wanted} {ts read rest : List (Placed Token)}

theorem exists_placed {t : Token} {after : List Token} (h : ts.map (·.val) = t :: after) :
    ∃ span rest, ts = ⟨t, span⟩ :: rest ∧ rest.map (·.val) = after := by
  obtain ⟨⟨_, span⟩, rest, rfl, rfl, hrest⟩ := List.map_eq_cons_iff.mp h
  exact ⟨span, rest, rfl, hrest⟩

theorem refuse_ne_ok {a : α} : refuse size wanted ts ≠ .ok a := by
  cases ts <;> simp [refuse]

theorem readAxis_eq_ok_iff (hknown : ∀ n a, known n = some a ↔ name a = n) {a : Axis α} :
    readAxis size known unknown ts = .ok (a, rest) ↔
      ∃ read, ts = read ++ rest ∧ AxisPhrase name (read.map (·.val)) a := by
  constructor
  · intro h
    unfold readAxis at h
    split at h
    case h_1 n _ _ =>
      cases h
      exact ⟨[_, _], rfl, .var n⟩
    case h_2 n s _ =>
      split at h
      case h_1 a ha =>
        cases h
        obtain rfl := (hknown n a).mp ha
        exact ⟨[⟨.word (name a), s⟩], rfl, .inst a⟩
      case h_2 => cases h
    case h_3 => exact absurd h refuse_ne_ok
  · rintro ⟨read, rfl, h⟩
    generalize hws : read.map (·.val) = ws at h
    cases h with
    | inst a =>
      obtain ⟨_, _, rfl, hnil⟩ := exists_placed hws
      obtain rfl := List.map_eq_nil_iff.mp hnil
      simp [readAxis, (hknown _ a).mpr rfl]
    | var n =>
      obtain ⟨_, _, rfl, hname⟩ := exists_placed hws
      obtain ⟨_, _, rfl, hnil⟩ := exists_placed hname
      obtain rfl := List.map_eq_nil_iff.mp hnil
      rfl

theorem readPayload_eq_ok_iff {a : Axis Payload} :
    readAxis size Payload.ofName? .unknownPayload ts = .ok (a, rest) ↔
      ∃ read, ts = read ++ rest ∧ AxisPhrase Payload.name (read.map (·.val)) a :=
  readAxis_eq_ok_iff fun _ _ => Payload.ofName?_eq_some_iff

theorem readUnit_eq_ok_iff {a : Axis UnitTag} :
    readAxis size UnitTag.ofName? .unknownUnit ts = .ok (a, rest) ↔
      ∃ read, ts = read ++ rest ∧ AxisPhrase UnitTag.name (read.map (·.val)) a :=
  readAxis_eq_ok_iff fun _ _ => UnitTag.ofName?_eq_some_iff

theorem readColon_eq_ok_iff : readColon size ts = .ok rest ↔ ∃ s, ts = ⟨.colon, s⟩ :: rest := by
  constructor
  · intro h
    unfold readColon at h
    split at h
    case h_1 s _ =>
      cases h
      exact ⟨s, rfl⟩
    case h_2 => exact absurd h refuse_ne_ok
  · rintro ⟨s, rfl⟩
    rfl

theorem exists_cardinalitySuffix (ts : List (Placed Token)) : ∃ read,
    ts = read ++ (readCardinality ts).2 ∧
      CardinalitySuffix (read.map (·.val)) (readCardinality ts).1 := by
  unfold readCardinality
  split
  · split
    · exact ⟨[_, _, _], rfl, .present (.var _)⟩
    · exact ⟨[], rfl, .absent⟩
  · split
    · split
      · rename_i hmany
        subst hmany
        exact ⟨[_, _, _, _, _], rfl, .present (.many _)⟩
      · exact ⟨[], rfl, .absent⟩
    · split
      · rename_i hzero
        subst hzero
        exact ⟨[_, _], rfl, .present .zero⟩
      · split
        · rename_i hone
          subst hone
          exact ⟨[_, _], rfl, .present .one⟩
        · exact ⟨[], rfl, .absent⟩
  · exact ⟨[], rfl, .absent⟩

theorem exists_temporalitySuffix (ts : List (Placed Token)) : ∃ read,
    ts = read ++ (readTemporality ts).2 ∧
      TemporalitySuffix (read.map (·.val)) (readTemporality ts).1 := by
  unfold readTemporality
  split
  · split
    · rename_i hcontinuous
      subst hcontinuous
      exact ⟨[_, _], rfl, .present .continuous⟩
    · split
      · rename_i hdiscrete
        subst hdiscrete
        exact ⟨[_, _], rfl, .present .discrete⟩
      · exact ⟨[], rfl, .absent⟩
  · exact ⟨[], rfl, .absent⟩

/-- A temporality, or nothing, follows the cardinality, and neither is taken for a part of it. -/
theorem readCardinality_append {m : Temporality} {c : Axis Cardinality}
    (hread : CardinalitySuffix (read.map (·.val)) c) (hrest : TemporalitySuffix (rest.map (·.val)) m) :
    readCardinality (read ++ rest) = (c, rest) := by
  generalize hms : rest.map (·.val) = ms at hrest
  generalize hcs : read.map (·.val) = cs at hread
  have hnext : rest = [] ∨ ∃ s rest', rest = ⟨.bang, s⟩ :: rest' := by
    cases hrest with
    | absent => exact .inl (List.map_eq_nil_iff.mp hms)
    | present _ =>
      obtain ⟨s, rest', rfl, -⟩ := exists_placed hms
      exact .inr ⟨s, rest', rfl⟩
  cases hread with
  | absent =>
    obtain rfl := List.map_eq_nil_iff.mp hcs
    rcases hnext with rfl | ⟨s, rest', rfl⟩ <;> rfl
  | present hphrase =>
    obtain ⟨_, _, rfl, hws⟩ := exists_placed hcs
    cases hphrase with
    | zero | one =>
      obtain ⟨_, _, rfl, hnil⟩ := exists_placed hws
      obtain rfl := List.map_eq_nil_iff.mp hnil
      rcases hnext with rfl | ⟨s, rest', rfl⟩ <;> rfl
    | many d =>
      obtain ⟨_, _, rfl, hleft⟩ := exists_placed hws
      obtain ⟨_, _, rfl, hdomain⟩ := exists_placed hleft
      obtain ⟨_, _, rfl, hright⟩ := exists_placed hdomain
      obtain ⟨_, _, rfl, hnil⟩ := exists_placed hright
      obtain rfl := List.map_eq_nil_iff.mp hnil
      rfl
    | var n =>
      obtain ⟨_, _, rfl, hname⟩ := exists_placed hws
      obtain ⟨_, _, rfl, hnil⟩ := exists_placed hname
      obtain rfl := List.map_eq_nil_iff.mp hnil
      rfl

theorem readTemporality_suffix {m : Temporality} (h : TemporalitySuffix (ts.map (·.val)) m) :
    readTemporality ts = (m, []) := by
  generalize hms : ts.map (·.val) = ms at h
  cases h with
  | absent =>
    obtain rfl := List.map_eq_nil_iff.mp hms
    rfl
  | present hphrase =>
    obtain ⟨_, _, rfl, hws⟩ := exists_placed hms
    cases hphrase with
    | continuous | discrete =>
      obtain ⟨_, _, rfl, hnil⟩ := exists_placed hws
      obtain rfl := List.map_eq_nil_iff.mp hnil
      rfl

/-! ## The place of a fault -/

/-- The span is that of a run of the tokens, or it is the end of a text of `size` bytes. -/
def Blames (size : Nat) (ts : List (Placed Token)) (s : Span) : Prop :=
  s = ⟨size, size⟩ ∨ ∃ a b, s = ⟨a.span.start, b.span.stop⟩ ∧ (a = b ∧ a ∈ ts ∨ [a, b].Sublist ts)

theorem Blames.of_mem {t : Placed Token} (h : t ∈ ts) : Blames size ts t.span :=
  .inr ⟨t, t, rfl, .inl ⟨rfl, h⟩⟩

theorem Blames.of_suffix {s : Span} (h : Blames size rest s) (hrest : rest <:+ ts) : Blames size ts s := by
  rcases h with h | ⟨a, b, hs, ⟨hab, ha⟩ | hab⟩
  · exact .inl h
  · exact .inr ⟨a, b, hs, .inl ⟨hab, hrest.subset ha⟩⟩
  · exact .inr ⟨a, b, hs, .inr (hab.trans hrest.sublist)⟩

theorem Blames.of_refuse {f : Fault} (h : refuse (α := α) size wanted ts = .error f) :
    Blames size ts f.span := by
  cases ts with
  | nil =>
    cases h
    exact .inl rfl
  | cons t ts =>
    cases h
    exact .of_mem List.mem_cons_self

theorem Blames.of_readAxis {f : Fault} (h : readAxis size known unknown ts = .error f) :
    Blames size ts f.span := by
  unfold readAxis at h
  split at h
  · cases h
  · split at h
    · cases h
    · cases h
      exact .of_mem List.mem_cons_self
  · exact .of_refuse h

theorem Blames.of_readColon {f : Fault} (h : readColon size ts = .error f) : Blames size ts f.span := by
  unfold readColon at h
  split at h
  · cases h
  · exact .of_refuse h

/-- A fault of all that was read goes from its first token to its last. -/
theorem Blames.of_read (hread : read ≠ []) (hts : ts = read ++ rest) :
    Blames size ts (spanBefore ts rest) := by
  subst hts
  have htake : (read ++ rest).take ((read ++ rest).length - rest.length) = read := by simp
  cases read with
  | nil => exact absurd rfl hread
  | cons a read =>
    rcases List.eq_nil_or_concat read with rfl | ⟨mid, b, rfl⟩
    · refine .inr ⟨a, a, ?_, .inl ⟨rfl, by simp⟩⟩
      simp [spanBefore]
    · refine .inr ⟨a, b, ?_, .inr ?_⟩
      · rw [spanBefore, htake, List.concat_eq_append, ← List.cons_append, List.getLast?_concat]
        rfl
      · rw [List.concat_eq_append, List.cons_append, List.append_assoc]
        exact .cons_cons a (List.singleton_sublist.mpr (by simp))

/-! ## Reading a type -/

theorem parseTokens_of_reads {t : PortType} {ts₁ ts₂ ts₃ ts₄ : List (Placed Token)}
    (hpayload : readAxis size Payload.ofName? .unknownPayload ts = .ok (t.payload, ts₁))
    (hcolon : readColon size ts₁ = .ok ts₂)
    (hunit : readAxis size UnitTag.ofName? .unknownUnit ts₂ = .ok (t.unit, ts₃))
    (hcardinality : readCardinality ts₃ = (t.cardinality, ts₄))
    (htemporality : readTemporality ts₄ = (t.temporality, rest)) :
    parseTokens size ts = match t.disallowedPair? with
      | some (p, u) => .error ⟨.disallowedPair p u, spanBefore ts rest⟩
      | none => if rest.isEmpty then .ok t else refuse size .endOfText rest := by
  obtain ⟨payload, unit, cardinality, temporality⟩ := t
  cases hpair : PortType.disallowedPair? ⟨payload, unit, cardinality, temporality⟩ <;>
    simp only [parseTokens, hpayload, hcolon, hunit, hcardinality, htemporality, hpair, bind, Except.bind]

/-- Either the reader takes the tokens for a type that they make up, or it finds fault with some of them. -/
theorem parseTokens_cases (size : Nat) (ts : List (Placed Token)) :
    (∃ t, parseTokens size ts = .ok t ∧ TypePhrase (ts.map (·.val)) t ∧ t.disallowedPair? = none) ∨
      ∃ f, parseTokens size ts = .error f ∧ Blames size ts f.span := by
  cases hpayload : readAxis size Payload.ofName? .unknownPayload ts with
  | error f => exact .inr ⟨f, by simp [parseTokens, hpayload, bind, Except.bind], .of_readAxis hpayload⟩
  | ok r =>
  obtain ⟨payload, ts₁⟩ := r
  obtain ⟨ps, rfl, hps⟩ := readPayload_eq_ok_iff.mp hpayload
  cases hcolon : readColon size ts₁ with
  | error f =>
    exact .inr ⟨f, by simp [parseTokens, hpayload, hcolon, bind, Except.bind],
      (Blames.of_readColon hcolon).of_suffix (List.suffix_append ..)⟩
  | ok ts₂ =>
  obtain ⟨colon, rfl⟩ := readColon_eq_ok_iff.mp hcolon
  cases hunit : readAxis size UnitTag.ofName? .unknownUnit ts₂ with
  | error f =>
    exact .inr ⟨f, by simp [parseTokens, hpayload, hcolon, hunit, bind, Except.bind],
      (Blames.of_readAxis hunit).of_suffix ((List.suffix_cons ..).trans (List.suffix_append ..))⟩
  | ok r =>
  obtain ⟨unit, ts₃⟩ := r
  obtain ⟨us, rfl, hus⟩ := readUnit_eq_ok_iff.mp hunit
  obtain ⟨cs, hcs, hc⟩ := exists_cardinalitySuffix ts₃
  cases hcardinality : readCardinality ts₃ with
  | mk c ts₄ =>
  obtain ⟨ms, hms, hm⟩ := exists_temporalitySuffix ts₄
  cases htemporality : readTemporality ts₄ with
  | mk m rest =>
  simp only [hcardinality, htemporality] at hcs hc hms hm
  let t : PortType := ⟨payload, unit, c, m⟩
  have hparse := parseTokens_of_reads (t := t) hpayload hcolon hunit hcardinality htemporality
  have hphrase : TypePhrase ((ps ++ ⟨.colon, colon⟩ :: us ++ cs ++ ms).map (·.val)) t := by
    simpa using TypePhrase.mk (t := t) hps hus hc hm
  have hread : ps ++ ⟨.colon, colon⟩ :: (us ++ ts₃) =
      (ps ++ ⟨.colon, colon⟩ :: us ++ cs ++ ms) ++ rest := by
    simp [hcs, hms]
  rw [hparse]
  cases hpair : t.disallowedPair? with
  | some pair => exact .inr ⟨_, rfl, .of_read (by simp) hread⟩
  | none =>
    cases rest with
    | nil =>
      rw [hread, List.append_nil]
      exact .inl ⟨t, rfl, hphrase, hpair⟩
    | cons next rest =>
      exact .inr ⟨_, rfl, (Blames.of_mem List.mem_cons_self).of_suffix ⟨_, hread.symm⟩⟩

theorem parseTokens_eq_ok_iff (size : Nat) {t : PortType} : parseTokens size ts = .ok t ↔
    TypePhrase (ts.map (·.val)) t ∧ t.disallowedPair? = none := by
  constructor
  · intro h
    rcases parseTokens_cases size ts with ⟨t', ht', hphrase⟩ | ⟨f, hf, -⟩
    · cases h.symm.trans ht'
      exact hphrase
    · cases h.symm.trans hf
  · rintro ⟨hphrase, hpair⟩
    generalize hws : ts.map (·.val) = ws at hphrase
    cases hphrase with
    | mk hp hu hc hm =>
    obtain ⟨_, ms, rfl, hwords, rfl⟩ := List.map_eq_append_iff.mp hws
    obtain ⟨_, cs, rfl, hhead, rfl⟩ := List.map_eq_append_iff.mp hwords
    obtain ⟨ps, _, rfl, rfl, htail⟩ := List.map_eq_append_iff.mp hhead
    obtain ⟨colon, us, rfl, rfl⟩ := exists_placed htail
    simp only [List.append_assoc, List.cons_append]
    rw [parseTokens_of_reads (readPayload_eq_ok_iff.mpr ⟨ps, rfl, hp⟩)
      (readColon_eq_ok_iff.mpr ⟨colon, rfl⟩) (readUnit_eq_ok_iff.mpr ⟨us, rfl, hu⟩)
      (readCardinality_append hc hm) (readTemporality_suffix hm), hpair]
    rfl

end

/-! ## Reading a text -/

theorem mem_tokens_iff {ps : List (Placed Piece)} {t : Placed Token} :
    t ∈ tokens ps ↔ ⟨.token t.val, t.span⟩ ∈ ps := by
  simp only [tokens, List.mem_filterMap]
  constructor
  · rintro ⟨⟨p, s⟩, hp, ht⟩
    cases p with
    | token _ =>
      cases ht
      exact hp
    | stray _ => cases ht
  · intro h
    exact ⟨_, h, rfl⟩

theorem mem_strays_iff {ps : List (Placed Piece)} {c : Placed Char} :
    c ∈ strays ps ↔ ⟨.stray c.val, c.span⟩ ∈ ps := by
  simp only [strays, List.mem_filterMap]
  constructor
  · rintro ⟨⟨p, s⟩, hp, hc⟩
    cases p with
    | token _ => cases hc
    | stray _ =>
      cases hc
      exact hp
  · intro h
    exact ⟨_, h, rfl⟩

theorem within_of_mem_tokens {text : String} {t : Placed Token} (ht : t ∈ tokens (scan text)) :
    t.span.Within text :=
  within_of_mem_scan (mem_tokens_iff.mp ht)

theorem tokens_ordered (text : String) :
    (tokens (scan text)).Pairwise fun a b => a.span.stop ≤ b.span.start := by
  refine List.pairwise_filterMap.mpr ((laidOut_scan text).ordered.imp ?_)
  rintro ⟨p, s⟩ ⟨q, r⟩ hpq a ha b hb
  cases p <;> cases q <;> cases ha <;> cases hb
  exact hpq

theorem Blames.within {text : String} {s : Span}
    (h : Blames text.utf8ByteSize (tokens (scan text)) s) : s.Within text := by
  rcases h with rfl | ⟨a, b, rfl, ⟨rfl, ha⟩ | hab⟩
  · exact within_end text
  · exact within_of_mem_tokens ha
  · have ha := within_of_mem_tokens (hab.subset (by simp : a ∈ [a, b]))
    have hb := within_of_mem_tokens (hab.subset (by simp : b ∈ [a, b]))
    have horder : a.span.stop ≤ b.span.start := by simpa using (tokens_ordered text).sublist hab
    have hle : a.span.start ≤ b.span.stop := ha.start_le.trans (horder.trans hb.start_le)
    exact ⟨hle, hb.stop_le, ha.start_valid, hb.stop_valid⟩

end TypeText

open TypeText

theorem PortType.disallowedPair?_eq_none_iff {t : PortType} : t.disallowedPair? = none ↔
    ∀ p u, t.payload = .inst p → t.unit = .inst u → p.admits u = true := by
  obtain ⟨_ | _, _ | _, c, m⟩ := t <;> simp [disallowedPair?]

theorem parsePortType_eq_ok_iff {s : String} {t : PortType} : parsePortType s = .ok t ↔
    strays (scan s) = [] ∧ TypePhrase ((tokens (scan s)).map (·.val)) t ∧ t.disallowedPair? = none := by
  rw [← parseTokens_eq_ok_iff s.utf8ByteSize]
  simp only [parsePortType]
  split
  · simp_all
  · split <;> simp_all

theorem within_of_parsePortType {s : String} {e : TypeTextError} (h : parsePortType s = .error e) :
    ∃ span fault, e = .malformed s span fault ∧ span.Within s := by
  simp only [parsePortType] at h
  split at h
  case h_1 c cs hstrays =>
    cases h
    have hc : c ∈ strays (scan s) := hstrays ▸ List.mem_cons_self
    exact ⟨c.span, _, rfl, within_of_mem_scan (mem_strays_iff.mp hc)⟩
  case h_2 =>
    rcases parseTokens_cases s.utf8ByteSize (tokens (scan s)) with ⟨t, ht, -⟩ | ⟨f, hf, hblames⟩
    · simp [ht] at h
    · simp only [hf] at h
      cases h
      exact ⟨f.span, f.val, rfl, hblames.within⟩

/-- A text is read as a type exactly when all of it is tokens, the tokens derive the type, and its payload
admits its unit as far as both are known; any other text is refused at a stretch of its characters. -/
theorem parsePortType_exact (text : String) :
    (∀ t, parsePortType text = .ok t ↔
      strays (scan text) = [] ∧ TypePhrase ((tokens (scan text)).map (·.val)) t ∧
        ∀ p u, t.payload = .inst p → t.unit = .inst u → p.admits u = true) ∧
      ∀ e, parsePortType text = .error e →
        ∃ span fault, e = .malformed text span fault ∧ span.Within text := by
  refine ⟨fun t => ?_, fun e he => within_of_parsePortType he⟩
  rw [← PortType.disallowedPair?_eq_none_iff]
  exact parsePortType_eq_ok_iff

-- a stray character comes first; a cardinality that breaks off is not read, and its mark is at fault
example : parsePortType " float:ms@many(é" = .error (.malformed " float:ms@many(é" ⟨15, 17⟩ (.stray 'é')) ∧
    parsePortType "float:ms@many(a!discrete" =
      .error (.malformed "float:ms@many(a!discrete" ⟨8, 9⟩ (.unexpected (some .atSign) .endOfText)) := by
  decide +kernel

end PatchTyping
