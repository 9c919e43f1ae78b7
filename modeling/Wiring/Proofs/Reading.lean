import Wiring.Json.Text

/-!
# Reading JSON that has been written

A JSON value is *verbal* if it is made of strings, arrays and objects (`Json.isVerbal`). The text of
such a value is read as the value itself, as long as its brackets are not nested too deep.

- `Token.scan_text`: strings and punctuation are found again in the text of their tokens, whatever the
  characters of the strings are.
- `Json.run_tokens`: the tokens of a value are read as the value, inside of any open brackets and
  before any other tokens, as long as there is room for its brackets.
- `Json.read?_text` puts both together.
- `Json.nesting_le_of_read?`: the other way round, nothing that is read is nested deeper than that.
-/

namespace Wiring

namespace Token

/-! ## Strings -/

namespace Mode

variable {mode : Mode} {c : Char}

theorem scan_cons (next : Mode) {now : List Token} (h : mode.step c = some (next, now))
    (cs : List Char) : mode.scan (c :: cs) = (next.scan cs).map (now ++ ·) := by
  rw [scan, h]
  cases hlater : next.scan cs with
  | none => simp [hlater]
  | some later => simp [hlater]

/-- A character at which no token ends. -/
theorem scan_cons_silent (next : Mode) (h : mode.step c = some (next, [])) (cs : List Char) :
    mode.scan (c :: cs) = next.scan cs := by
  rw [scan_cons next h]
  simp

theorem step_code (units : List Nat) {d : Nat} (h : hexDigit? c = some d) (due value : Nat) :
    (code units due value).step c =
      some (if due ≤ 1 then .string ((16 * value + d) :: units)
        else .code units (due - 1) (16 * value + d), []) := by
  simp [step, h]

theorem hexDigit?_digitChar : ∀ d < 16, hexDigit? (Nat.digitChar d) = some d := by decide

/-- In the middle of a string, what is written for a character is read as the character. -/
theorem scan_escape (units : List Nat) (c : Char) (rest : List Char) :
    (string units).scan (escape c ++ rest) = (string (c.toNat :: units)).scan rest := by
  -- an escape of one letter takes two steps
  have hletter : ∀ {x y : Char}, (escaped units).step x = some (.string (y.toNat :: units), []) →
      (string units).scan ('\\' :: x :: rest) = (string (y.toNat :: units)).scan rest := by
    intro x y h
    rw [scan_cons_silent (.escaped units) rfl, scan_cons_silent _ h]
  fun_cases escape c
  case case8 hcontrol =>
    -- a control character is written by its number
    have hhigh := hexDigit?_digitChar (c.toNat / 16) (by omega)
    have hlow := hexDigit?_digitChar (c.toNat % 16) (by omega)
    have hvalue : 16 * (16 * 0 + c.toNat / 16) + c.toNat % 16 = c.toNat := by omega
    have hlast := step_code units hlow 1 (16 * 0 + c.toNat / 16)
    rw [hvalue] at hlast
    show (string units).scan ('\\' :: 'u' :: '0' :: '0' :: _ :: _ :: rest) = _
    rw [scan_cons_silent (.escaped units) rfl,
      scan_cons_silent (.code units 4 0) rfl,
      scan_cons_silent (.code units 3 0) rfl,
      scan_cons_silent (.code units 2 0) rfl,
      scan_cons_silent (.code units 1 _) (step_code units hhigh 2 0)]
    exact scan_cons_silent _ hlast rest
  case case9 hquote hbackslash _ _ _ _ _ hcontrol =>
    refine scan_cons_silent _ ?_ rest
    simp [step, hquote, hbackslash, hcontrol]
  all_goals
    subst_vars
    exact hletter rfl

theorem scan_escapes (units : List Nat) (cs rest : List Char) :
    (string units).scan (cs.flatMap escape ++ rest) =
      (string ((cs.map Char.toNat).reverse ++ units)).scan rest := by
  induction cs generalizing units with
  | nil => rfl
  | cons c cs ih =>
    rw [List.flatMap_cons, List.append_assoc, scan_escape, ih]
    simp

end Mode

/-- Characters are no surrogates. -/
theorem not_surrogate (c : Char) : isLowSurrogate c.toNat = false ∧ isHighSurrogate c.toNat = false := by
  have hvalid : c.toNat < 0xD800 ∨ 0xDFFF < c.toNat ∧ c.toNat < 0x110000 := c.valid
  simp only [isLowSurrogate, isHighSurrogate, Bool.and_eq_false_iff, decide_eq_false_iff_not]
  constructor <;> omega

theorem characters?_append (cs : List Char) (units : List Nat) (after : List Char) :
    characters? ((cs.map Char.toNat).reverse ++ units) after = characters? units (cs ++ after) := by
  induction cs generalizing units with
  | nil => rfl
  | cons c cs ih =>
    obtain ⟨hlow, hhigh⟩ := not_surrogate c
    rw [List.map_cons, List.reverse_cons, List.append_assoc, ih, List.singleton_append,
      characters?.eq_def]
    simp [hlow, hhigh]

/-- The units of characters make up the string of these characters. -/
theorem ofUnits_toNat (cs : List Char) :
    ofUnits (cs.map Char.toNat).reverse = .str (String.ofList cs) := by
  have h := characters?_append cs [] []
  rw [List.append_nil, List.append_nil, characters?] at h
  rw [ofUnits, h]

/-! ## Tokens -/

/-- A token whose text shows where it ends: punctuation or a string. -/
def isDelimited : Token → Bool
  | .null | .bool _ | .int _ | .float _ | .brokenStr => false
  | _ => true

theorem scan_text_append {t : Token} (h : t.isDelimited = true) (rest : List Char) :
    Mode.between.scan (t.text ++ rest) = (Mode.between.scan rest).map (t :: ·) := by
  cases t with
  | str s =>
    rw [text, List.cons_append, List.append_assoc, Mode.scan_cons_silent (.string []) rfl,
      Mode.scan_escapes, List.append_nil, List.singleton_append,
      Mode.scan_cons .between rfl, ofUnits_toNat, String.ofList_toList]
    rfl
  | null | brokenStr => cases h
  | bool _ | int _ | float _ => cases h
  | _ =>
    rw [text, List.singleton_append, Mode.scan_cons .between rfl]
    rfl

/-- **Delimited tokens are found again in their texts.** -/
theorem scan_text {ts : List Token} (h : ∀ t ∈ ts, t.isDelimited = true) :
    scan (ts.flatMap text) = some ts := by
  induction ts with
  | nil => rfl
  | cons t ts ih =>
    have hts : Mode.between.scan (ts.flatMap text) = some ts :=
      ih fun t ht => h t (List.mem_cons_of_mem _ ht)
    rw [List.flatMap_cons, scan, scan_text_append (h t List.mem_cons_self), hts]
    rfl

end Token

namespace Json

/-! ## Verbal values -/

mutual

/-- Whether a value is made of strings, arrays and objects. -/
def isVerbal : Json → Bool
  | .str _ => true
  | .arr items => itemsVerbal items
  | .obj fields => fieldsVerbal fields
  | _ => false

/-- Whether all items are. -/
def itemsVerbal : List Json → Bool
  | [] => true
  | j :: rest => j.isVerbal && itemsVerbal rest

/-- Whether the values of all fields are. -/
def fieldsVerbal : List (String × Json) → Bool
  | [] => true
  | (_, value) :: rest => value.isVerbal && fieldsVerbal rest

end

mutual

theorem isDelimited_tokens : ∀ {j : Json}, j.isVerbal = true → ∀ t ∈ j.tokens, t.isDelimited = true
  | .str s, _, t, ht => by
    cases List.mem_singleton.mp ht
    rfl
  | .arr items, h, t, ht => by
    rw [isVerbal] at h
    simp only [tokens, List.mem_cons, List.mem_append, List.not_mem_nil, or_false] at ht
    rcases ht with rfl | ht | rfl
    · rfl
    · exact isDelimited_itemTokens h t ht
    · rfl
  | .obj fields, h, t, ht => by
    rw [isVerbal] at h
    simp only [tokens, List.mem_cons, List.mem_append, List.not_mem_nil, or_false] at ht
    rcases ht with rfl | ht | rfl
    · rfl
    · exact isDelimited_fieldTokens h t ht
    · rfl

theorem isDelimited_itemTokens : ∀ {items : List Json}, itemsVerbal items = true →
    ∀ t ∈ itemTokens items, t.isDelimited = true
  | [], _, _, ht => nomatch ht
  | [j], h, t, ht => by
    simp only [itemsVerbal, Bool.and_true] at h
    exact isDelimited_tokens h t ht
  | j :: j' :: rest, h, t, ht => by
    rw [itemsVerbal, Bool.and_eq_true] at h
    simp only [itemTokens, List.mem_append, List.mem_cons] at ht
    rcases ht with ht | rfl | ht
    · exact isDelimited_tokens h.1 t ht
    · rfl
    · exact isDelimited_itemTokens h.2 t ht

theorem isDelimited_fieldTokens : ∀ {fields : List (String × Json)}, fieldsVerbal fields = true →
    ∀ t ∈ fieldTokens fields, t.isDelimited = true
  | [], _, _, ht => nomatch ht
  | [(key, value)], h, t, ht => by
    simp only [fieldsVerbal, Bool.and_true] at h
    simp only [fieldTokens, List.mem_cons] at ht
    rcases ht with rfl | rfl | ht
    · rfl
    · rfl
    · exact isDelimited_tokens h t ht
  | (key, value) :: field :: rest, h, t, ht => by
    rw [fieldsVerbal, Bool.and_eq_true] at h
    simp only [fieldTokens, List.mem_append, List.mem_cons] at ht
    rcases ht with rfl | rfl | ht | rfl | ht
    · rfl
    · rfl
    · exact isDelimited_tokens h.1 t ht
    · rfl
    · exact isDelimited_fieldTokens h.2 t ht

end

/-! ## Values -/

/-- The object of fields whose keys have all been read. -/
theorem ofKeys_some (fields : List (String × Json)) :
    ofKeys (fields.map fun field => (some field.1, field.2)) = .obj fields := by
  have hfields : fields.mapM some = some fields :=
    (List.mapM_pure (m := Option) (f := id)).trans (congrArg some fields.map_id)
  simp only [ofKeys, List.mapM_map, Function.comp_def, Option.map_some, hfields]

namespace Pending

theorem run_cons (next : Pending) {p : Pending} {t : Token} (h : p.step t = some next)
    (ts : List Token) : p.run (t :: ts) = next.run ts := by
  rw [run, h]
  rfl

theorem close_of_lt {opened : List Frame} (h : opened.length < nestingLimit) (j : Json) :
    close j opened = .after j opened := by
  rw [close, if_pos ((hasRoom_iff opened).mpr h)]

/-- The first item of an array is read as any other value. -/
theorem firstItem_run {t : Token} (ht : t ≠ .closeArray) (opened : List Frame) (ts : List Token) :
    (firstItem opened).run (t :: ts) = (value (.items [] :: opened)).run (t :: ts) := by
  cases t with
  | closeArray => exact absurd rfl ht
  | _ => rfl

/-- The first key of an object is read as any other key. -/
theorem firstKey_run (key : String) (opened : List Frame) (ts : List Token) :
    (firstKey opened).run (.str key :: ts) = (Pending.key [] opened).run (.str key :: ts) := rfl

end Pending

/-- No value begins with a closing bracket. -/
theorem tokens_cons (j : Json) : ∃ t ts, j.tokens = t :: ts ∧ t ≠ .closeArray := by
  cases j <;> exact ⟨_, _, rfl, fun h => nomatch h⟩

mutual

/-- **The tokens of a value are read as the value**, whatever is open before it and follows after it. -/
theorem run_tokens : ∀ {j : Json} (opened : List Frame) (ts : List Token), j.isVerbal = true →
    j.nesting + opened.length ≤ nestingLimit →
    (Pending.value opened).run (j.tokens ++ ts) = (Pending.after j opened).run ts
  | .str s, opened, ts, _, _ => rfl
  | .arr [], opened, ts, _, hroom => by
    simp only [nesting, nestingItems] at hroom
    show (Pending.close (.arr []) opened).run ts = _
    rw [Pending.close_of_lt (by omega)]
  | .arr (j :: rest), opened, ts, h, hroom => by
    rw [isVerbal] at h
    rw [nesting] at hroom
    have hitems := run_itemTokens [] opened ts (List.cons_ne_nil j rest) h (by omega)
    obtain ⟨t, later, htokens, ht⟩ : ∃ t later, itemTokens (j :: rest) = t :: later ∧
        t ≠ .closeArray := by
      obtain ⟨t, later, hj, ht⟩ := tokens_cons j
      cases rest with
      | nil => exact ⟨t, later, hj, ht⟩
      | cons j' rest => exact ⟨t, later ++ .comma :: itemTokens (j' :: rest), by simp [itemTokens, hj], ht⟩
    rw [tokens, List.cons_append, Pending.run_cons (.firstItem opened) rfl, List.append_assoc,
      List.singleton_append]
    rw [htokens, List.cons_append] at hitems ⊢
    rw [Pending.firstItem_run ht, hitems]
    rfl
  | .obj [], opened, ts, _, hroom => by
    simp only [nesting, nestingFields] at hroom
    show (Pending.close (.obj []) opened).run ts = _
    rw [Pending.close_of_lt (by omega)]
  | .obj (field :: rest), opened, ts, h, hroom => by
    rw [isVerbal] at h
    rw [nesting] at hroom
    have hfields := run_fieldTokens [] opened ts (List.cons_ne_nil field rest) h (by omega)
    obtain ⟨later, htokens⟩ : ∃ later, fieldTokens (field :: rest) = .str field.1 :: later := by
      cases rest <;> exact ⟨_, rfl⟩
    rw [tokens, List.cons_append, Pending.run_cons (.firstKey opened) rfl, List.append_assoc,
      List.singleton_append]
    rw [htokens, List.cons_append] at hfields ⊢
    rw [Pending.firstKey_run, hfields, List.reverse_nil, List.nil_append, ofKeys_some]

theorem run_itemTokens : ∀ {items : List Json} (read : List Json) (opened : List Frame)
    (ts : List Token), items ≠ [] → itemsVerbal items = true →
    nestingItems items + opened.length < nestingLimit →
    (Pending.value (.items read :: opened)).run (itemTokens items ++ .closeArray :: ts) =
      (Pending.after (.arr (read.reverse ++ items)) opened).run ts
  | [], _, _, _, hne, _, _ => absurd rfl hne
  | [j], read, opened, ts, _, h, hroom => by
    simp only [itemsVerbal, Bool.and_true] at h
    simp only [nestingItems, Nat.max_zero] at hroom
    rw [itemTokens, run_tokens _ _ h (by simp only [List.length_cons]; omega),
      Pending.run_cons (.close (.arr (j :: read).reverse) opened) rfl, Pending.close_of_lt (by omega),
      List.reverse_cons]
  | j :: j' :: rest, read, opened, ts, _, h, hroom => by
    rw [itemsVerbal, Bool.and_eq_true] at h
    rw [nestingItems] at hroom
    have hrest := run_itemTokens (j :: read) opened ts (List.cons_ne_nil j' rest) h.2 (by omega)
    rw [itemTokens, List.append_assoc, run_tokens _ _ h.1 (by simp only [List.length_cons]; omega),
      List.cons_append, Pending.run_cons (.value (.items (j :: read) :: opened)) rfl, hrest,
      List.reverse_cons, List.append_assoc, List.singleton_append]
    exact List.cons_ne_nil j' rest

theorem run_fieldTokens : ∀ {fields : List (String × Json)} (read : List (Option String × Json))
    (opened : List Frame) (ts : List Token), fields ≠ [] → fieldsVerbal fields = true →
    nestingFields fields + opened.length < nestingLimit →
    (Pending.key read opened).run (fieldTokens fields ++ .closeObject :: ts) =
      (Pending.after (ofKeys (read.reverse ++ fields.map fun field => (some field.1, field.2)))
        opened).run ts
  | [], _, _, _, hne, _, _ => absurd rfl hne
  | [(key, value)], read, opened, ts, _, h, hroom => by
    simp only [fieldsVerbal, Bool.and_true] at h
    simp only [nestingFields, Nat.max_zero] at hroom
    rw [fieldTokens, List.cons_append, List.cons_append,
      Pending.run_cons (.colon read (some key) opened) rfl,
      Pending.run_cons (.value (.field read (some key) :: opened)) rfl,
      run_tokens _ _ h (by simp only [List.length_cons]; omega),
      Pending.run_cons (.close (ofKeys ((some key, value) :: read).reverse) opened) rfl,
      Pending.close_of_lt (by omega), List.reverse_cons]
    rfl
  | (key, value) :: field :: rest, read, opened, ts, _, h, hroom => by
    rw [fieldsVerbal, Bool.and_eq_true] at h
    rw [nestingFields] at hroom
    have hrest := run_fieldTokens ((some key, value) :: read) opened ts (List.cons_ne_nil field rest)
      h.2 (by omega)
    rw [fieldTokens, List.cons_append, List.cons_append,
      Pending.run_cons (.colon read (some key) opened) rfl,
      Pending.run_cons (.value (.field read (some key) :: opened)) rfl, List.append_assoc,
      run_tokens _ _ h.1 (by simp only [List.length_cons]; omega), List.cons_append,
      Pending.run_cons (.key ((some key, value) :: read) opened) rfl, hrest, List.reverse_cons,
      List.append_assoc, List.singleton_append, List.map_cons (l := field :: rest)]
    exact List.cons_ne_nil field rest

end

/-- **The text of a verbal value is read as the value**, if its brackets are not nested too deep. -/
theorem read?_text {j : Json} (h : j.isVerbal = true) (hnesting : j.nesting ≤ nestingLimit) :
    read? j.text = some j := by
  have htokens := run_tokens [] [] h hnesting
  rw [List.append_nil] at htokens
  rw [read?, text, String.toList_ofList, Token.scan_text (isDelimited_tokens h), Option.bind_some,
    ofTokens?, htokens]
  rfl

/-! ## The depth of what is read -/

variable {n : Nat}

theorem nestingItems_le : ∀ {items : List Json}, (∀ j ∈ items, j.nesting ≤ n) →
    nestingItems items ≤ n
  | [], _ => Nat.zero_le n
  | j :: items, h => by
    rw [nestingItems]
    exact Nat.max_le.mpr ⟨h j List.mem_cons_self,
      nestingItems_le fun j hj => h j (List.mem_cons_of_mem _ hj)⟩

theorem nestingFields_le : ∀ {fields : List (String × Json)}, (∀ f ∈ fields, f.2.nesting ≤ n) →
    nestingFields fields ≤ n
  | [], _ => Nat.zero_le n
  | (_, value) :: fields, h => by
    rw [nestingFields]
    exact Nat.max_le.mpr ⟨h _ List.mem_cons_self,
      nestingFields_le fun f hf => h f (List.mem_cons_of_mem _ hf)⟩

/-- Reading the keys leaves the values as they are. -/
theorem values_of_keys {fields : List (Option String × Json)} {read : List (String × Json)}
    (h : fields.mapM (fun field => field.1.map (·, field.2)) = some read) :
    read.map (·.2) = fields.map (·.2) := by
  induction fields generalizing read with
  | nil =>
    cases h
    rfl
  | cons field fields ih =>
    simp only [List.mapM_cons, Option.bind_eq_bind, Option.bind_eq_some_iff,
      Option.map_eq_some_iff, Option.pure_def, Option.some.injEq] at h
    obtain ⟨-, ⟨key, -, rfl⟩, rest, hrest, rfl⟩ := h
    rw [List.map_cons, List.map_cons, ih hrest]

theorem nesting_ofKeys_le {fields : List (Option String × Json)}
    (h : ∀ f ∈ fields, f.2.nesting ≤ n) : (ofKeys fields).nesting ≤ n + 1 := by
  rw [ofKeys]
  split
  · rename_i read hread
    rw [nesting]
    refine Nat.succ_le_succ (nestingFields_le fun f hf => ?_)
    have hvalue : f.2 ∈ fields.map (·.2) := values_of_keys hread ▸ List.mem_map_of_mem hf
    obtain ⟨g, hg, hgf⟩ := List.mem_map.mp hvalue
    exact hgf ▸ h g hg
  · exact Nat.zero_le _

/-- What has been read inside of a bracket. -/
def Frame.values : Frame → List Json
  | .items read => read
  | .field read _ => read.map (·.2)

/-- All that has been read inside of open brackets has left room for them. -/
def FramesFit : List Frame → Prop
  | [] => True
  | frame :: opened =>
    (∀ j ∈ frame.values, j.nesting ≤ nestingLimit - (opened.length + 1)) ∧ FramesFit opened

namespace Pending

/-- All that has been read so far has left room for the open brackets. -/
def Fits : Pending → Prop
  | .value opened => FramesFit opened
  | .firstItem opened => FramesFit opened
  | .firstKey opened => FramesFit opened
  | .key read opened => FramesFit (.field read none :: opened)
  | .colon read k opened => FramesFit (.field read k :: opened)
  | .after j opened => j.nesting ≤ nestingLimit - opened.length ∧ FramesFit opened

variable {p p' : Pending} {t : Token} {opened : List Frame}

/-- Brackets that cannot be read are taken for what has no brackets. -/
theorem fits_close {j : Json} (hj : j.nesting ≤ nestingLimit - (opened.length + 1) + 1)
    (h : FramesFit opened) : (close j opened).Fits := by
  show (if hasRoom opened then j else .unreadable).nesting ≤ nestingLimit - opened.length ∧ _
  refine ⟨?_, h⟩
  split
  · rename_i hroom
    rw [hasRoom_iff] at hroom
    omega
  · exact Nat.zero_le _

theorem fits_begin (h : FramesFit opened) (ht : begin opened t = some p) : p.Fits := by
  have hflat : ∀ {j : Json}, j.nesting = 0 → (after j opened).Fits := by
    intro j hj
    refine ⟨?_, h⟩
    omega
  cases t with
  | openArray =>
    cases ht
    exact h
  | openObject =>
    cases ht
    exact h
  | float x =>
    cases ht
    refine hflat ?_
    split <;> rfl
  | null | brokenStr =>
    cases ht
    exact hflat rfl
  | bool _ | int _ | str _ =>
    cases ht
    exact hflat rfl
  | _ => cases ht

theorem fits_beginField {read : List (Option String × Json)}
    (h : FramesFit (.field read none :: opened)) (ht : beginField read opened t = some p) :
    p.Fits := by
  cases t with
  | str k =>
    cases ht
    exact h
  | brokenStr =>
    cases ht
    exact h
  | _ => cases ht

/-- No token takes away the room. -/
theorem Fits.step (h : p.Fits) (ht : p.step t = some p') : p'.Fits := by
  have hitems : ∀ {opened}, FramesFit opened → FramesFit (.items [] :: opened) :=
    fun h => ⟨fun _ hj => (nomatch hj), h⟩
  have hfields : ∀ {opened}, FramesFit opened → FramesFit (.field [] none :: opened) :=
    fun h => ⟨fun _ hj => (nomatch hj), h⟩
  unfold Pending.step at ht
  split at ht
  · exact fits_begin h ht
  · cases ht
    exact fits_close (Nat.le_add_left _ _) h
  · exact fits_begin (hitems h) ht
  · cases ht
    exact fits_close (Nat.le_add_left _ _) h
  · exact fits_beginField (hfields h) ht
  · exact fits_beginField h ht
  · cases ht
    exact h
  · -- a further item
    cases ht
    exact ⟨List.forall_mem_cons.mpr ⟨h.1, h.2.1⟩, h.2.2⟩
  · cases ht
    refine fits_close (Nat.succ_le_succ (nestingItems_le ?_)) h.2.2
    simp only [List.mem_reverse, List.forall_mem_cons]
    exact ⟨h.1, h.2.1⟩
  · -- a further field
    cases ht
    exact ⟨List.forall_mem_cons.mpr ⟨h.1, h.2.1⟩, h.2.2⟩
  · cases ht
    refine fits_close (nesting_ofKeys_le ?_) h.2.2
    simp only [List.mem_reverse, List.forall_mem_cons]
    exact ⟨h.1, fun f hf => h.2.1 f.2 (List.mem_map_of_mem hf)⟩
  · cases ht

theorem Fits.run {j : Json} {ts : List Token} (h : p.Fits) (hrun : p.run ts = some j) :
    j.nesting ≤ nestingLimit := by
  induction ts generalizing p with
  | nil =>
    rw [Pending.run] at hrun
    unfold finish at hrun
    split at hrun
    · cases hrun
      exact h.1
    · cases hrun
  | cons t ts ih =>
    obtain ⟨p', hstep, hrun⟩ := Option.bind_eq_some_iff.mp hrun
    exact ih (h.step hstep) hrun

end Pending

/-- **Nothing that is read is nested too deep.** -/
theorem nesting_le_of_read? {s : String} {j : Json} (h : read? s = some j) :
    j.nesting ≤ nestingLimit := by
  obtain ⟨ts, -, h⟩ := Option.bind_eq_some_iff.mp h
  exact Pending.Fits.run (p := .value []) trivial h

end Json

end Wiring
