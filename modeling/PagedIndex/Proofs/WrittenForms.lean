import PagedIndex.Json.TextForms

/-!
# Written forms are read back

Ids, kinds, settings and tree shapes have text forms. What is written for one
of them is a value to the reader, and the value that was written. A number does
not say where it ends, so that what a text stands for depends on what follows
it; in a record that is a comma or the closing brace.
-/

namespace PagedIndex

namespace Json

/-! ## Numbers -/

/-- No number is continued by this text. -/
def EndsNumber (cs : List Char) : Prop :=
  ∀ c ∈ cs.head?, c.isDigit = false ∧ c ≠ '.' ∧ c ≠ 'e' ∧ c ≠ 'E'

theorem endsNumber_nil : EndsNumber [] := nofun

theorem endsNumber_cons {c : Char} {cs : List Char}
    (h : c.isDigit = false ∧ c ≠ '.' ∧ c ≠ 'e' ∧ c ≠ 'E') : EndsNumber (c :: cs) := by
  rintro _ ⟨⟩
  exact h

theorem ofDigits_toDigits (n : Nat) : ofDigits (Nat.toDigits 10 n) = n := by
  rw [ofDigits, ← Nat.ofDigitChars_eq_foldl]
  exact Nat.ofDigitChars_ten_toDigits

theorem isDigit_of_mem_toDigits {n : Nat} {c : Char} (h : c ∈ Nat.toDigits 10 n) :
    c.isDigit = true :=
  Nat.isDigit_of_mem_toDigits (by decide) (by decide) h

/-- A number is zero or written without a zero in front. -/
theorem head?_toDigits {n : Nat} (h : 0 < n) : (Nat.toDigits 10 n).head? ≠ some '0' := by
  have hdigit : ∀ d : Fin 10, 0 < d.val → some (d.val.digitChar) ≠ some '0' := by decide
  induction n using Nat.strongRecOn with
  | ind n ih =>
    rcases Nat.lt_or_ge n 10 with hlt | hge
    · rw [Nat.toDigits_of_lt_base hlt]
      exact hdigit ⟨n, hlt⟩ h
    · have hpos : 0 < n / 10 := Nat.div_pos hge (by decide)
      have hhead := ih _ (Nat.div_lt_self h (by decide)) hpos
      rw [Nat.toDigits_of_base_le (by decide) hge]
      cases hfront : Nat.toDigits 10 (n / 10) with
      | nil => exact absurd hfront Nat.toDigits_ne_nil
      | cons d ds =>
        rw [hfront] at hhead
        exact hhead

section Digits

variable {ds rest : List Char}

theorem readDigits_append (hne : ds ≠ []) (hds : ∀ c ∈ ds, c.isDigit = true)
    (hrest : EndsNumber rest) : readDigits (ds ++ rest) = some (ds, rest) := by
  have hend : rest.takeWhile Char.isDigit = [] ∧ rest.dropWhile Char.isDigit = rest := by
    cases rest with
    | nil => exact ⟨rfl, rfl⟩
    | cons c rest =>
      have hc : ¬ c.isDigit = true := Bool.eq_false_iff.mp (hrest c rfl).1
      exact ⟨List.takeWhile_cons_of_neg hc, List.dropWhile_cons_of_neg hc⟩
  rw [readDigits, List.takeWhile_append_of_pos hds, List.dropWhile_append_of_pos hds, hend.1,
    hend.2, List.append_nil]
  cases ds with
  | nil => exact absurd rfl hne
  | cons d ds => rfl

theorem readWhole_toDigits (n : Nat) (hrest : EndsNumber rest) :
    readWhole (Nat.toDigits 10 n ++ rest) = some (Nat.toDigits 10 n, rest) := by
  rw [readWhole, readDigits_append Nat.toDigits_ne_nil (fun _ => isDigit_of_mem_toDigits) hrest]
  split
  · rename_i hzero
    rw [Option.some.injEq, Prod.mk.injEq] at hzero
    rcases Nat.eq_zero_or_pos n with rfl | hpos
    · rw [Nat.toDigits_zero] at hzero
      cases hzero.1
    · refine absurd ?_ (head?_toDigits hpos)
      rw [hzero.1]
      rfl
  · rfl

theorem skipFraction_of_ends (hrest : EndsNumber rest) : skipFraction rest = some (false, rest) := by
  rw [skipFraction.eq_def]
  split
  · exact absurd rfl (hrest _ rfl).2.1
  · rfl

theorem skipExponent_of_ends (hrest : EndsNumber rest) : skipExponent rest = some (false, rest) := by
  rw [skipExponent.eq_def]
  split
  · exact absurd rfl (hrest _ rfl).2.2.1
  · exact absurd rfl (hrest _ rfl).2.2.2
  · rfl

theorem readUnsigned_toDigits (n : Nat) (hrest : EndsNumber rest) :
    readUnsigned (Nat.toDigits 10 n ++ rest) = some (natural n, rest) := by
  simp only [readUnsigned, readWhole_toDigits n hrest, skipFraction_of_ends hrest,
    skipExponent_of_ends hrest, Option.bind_eq_bind, Option.bind_some, Bool.or_self,
    Bool.false_eq_true, if_false, ofDigits_toDigits, Option.pure_def]

end Digits

/-! ## Names -/

/-- Characters that stand for themselves in a string. -/
def Plain (cs : List Char) : Prop := ∀ c ∈ cs, c ≠ '"' ∧ c ≠ '\\' ∧ 32 ≤ c.toNat

instance (cs : List Char) : Decidable (Plain cs) :=
  List.decidableBAll (fun c => c ≠ '"' ∧ c ≠ '\\' ∧ 32 ≤ c.toNat) cs

theorem readPieces_plain {cs : List Char} (h : Plain cs) (rest : List Char) :
    readPieces (cs ++ '"' :: rest) = some (cs.map .char, rest) := by
  induction cs with
  | nil => rfl
  | cons c cs ih =>
    obtain ⟨⟨hquote, hescape, hplain⟩, hcs⟩ := List.forall_mem_cons.mp h
    rw [List.cons_append, readPieces, if_neg (Nat.not_lt.mpr hplain), ih hcs]
    · rfl
    · exact hquote
    · exact fun _ _ _ _ _ he _ => hescape he
    · exact fun _ _ he _ => hescape he

theorem joinPieces_char (cs : List Char) : joinPieces (cs.map .char) = some cs := by
  induction cs with
  | nil => rfl
  | cons c cs ih =>
    rw [List.map_cons, joinPieces, ih]
    rfl

theorem readText_plain {name : String} (h : Plain name.toList) (rest : List Char) :
    readText (name.toList ++ '"' :: rest) = some (some name, rest) := by
  simp only [readText, readPieces_plain h, joinPieces_char, Option.bind_eq_bind, Option.bind_some,
    Option.map_some, String.ofList_toList, Option.pure_def]

/-! ## Values -/

/-- The text stands for the value: a reader that comes to it reads the value and
stops behind the text. -/
def Reads (cs : List Char) (j : Json) : Prop :=
  ∀ fuel rest, cs.length ≤ fuel → EndsNumber rest → readValue fuel (cs ++ rest) = some (j, rest)

theorem skipBlanks_cons {c : Char} (h : isBlank c = false) (cs : List Char) :
    skipBlanks (c :: cs) = c :: cs :=
  List.dropWhile_cons_of_neg (Bool.eq_false_iff.mp h)

/-- Behind a digit a reader expects a number. -/
theorem readValue_digit {d : Char} (h : d.isDigit = true) (fuel : Nat) (cs : List Char) :
    readValue (fuel + 1) (d :: cs) = readUnsigned (d :: cs) := by
  have hne : ∀ c : Char, c.isDigit = false → d ≠ c := by
    rintro c hc rfl
    rw [h] at hc
    cases hc
  have hblank : isBlank d = false := by
    simp only [isBlank, Bool.or_eq_false_iff, decide_eq_false_iff_not]
    exact ⟨⟨⟨hne _ rfl, hne _ rfl⟩, hne _ rfl⟩, hne _ rfl⟩
  rw [readValue, skipBlanks_cons hblank]
  split
  case h_7 =>
    rw [readNumber]
    rintro _ ⟨⟩
    exact hne '-' rfl rfl
  all_goals
    rename_i he
    cases he
    cases h

theorem reads_natural (n : Nat) : Reads (toString n).toList (natural n) := by
  intro fuel rest hfuel hrest
  rw [Nat.toString_eq_ofList_toDigits, String.toList_ofList] at *
  have hmem : ∀ c ∈ Nat.toDigits 10 n, c.isDigit = true := fun _ => isDigit_of_mem_toDigits
  have hread := readUnsigned_toDigits n hrest
  cases hds : Nat.toDigits 10 n with
  | nil => exact absurd hds Nat.toDigits_ne_nil
  | cons d ds =>
    rw [hds] at hfuel hmem hread
    obtain ⟨fuel, rfl⟩ := Nat.exists_eq_add_of_le' (Nat.le_trans (Nat.succ_pos _) hfuel)
    rw [List.cons_append, readValue_digit (hmem d List.mem_cons_self)]
    exact hread

theorem reads_bool (b : Bool) : Reads (toString b).toList (bool b) := by
  intro fuel rest hfuel _
  cases b <;> cases fuel with
  | zero => cases hfuel
  | succ fuel => rfl

theorem reads_quoted {name : String} (h : Plain name.toList) :
    Reads (quoted name).toList (text (some name)) := by
  intro fuel rest hfuel _
  have hchars : (quoted name).toList = '"' :: (name.toList ++ ['"']) := by
    rw [quoted, String.toList_append, String.toList_append]
    rfl
  rw [hchars] at hfuel ⊢
  obtain ⟨fuel, rfl⟩ := Nat.exists_eq_add_of_le' (Nat.le_trans (Nat.succ_pos _) hfuel)
  rw [List.cons_append, List.append_assoc, readValue, skipBlanks_cons rfl]
  simp only [List.singleton_append, readText_plain h, Option.map_some]

/-! ## Records -/

/-- A member of a record: a name and a text that stands for the value. -/
structure Member where
  name : String
  text : String
  value : Json
  plain : Plain name.toList
  reads : Reads text.toList value

namespace Member

def chars (m : Member) : List Char := '"' :: (m.name.toList ++ '"' :: ':' :: m.text.toList)

/-- The member as it is read. -/
def read (m : Member) : Option String × Json := (some m.name, m.value)

end Member

/-- The members of a record, with the brace behind them. -/
def recordChars (ms : List Member) : List Char := [','].intercalate (ms.map Member.chars) ++ ['\x7d']

theorem recordChars_singleton (m : Member) : recordChars [m] = m.chars ++ ['\x7d'] := by
  rw [recordChars, List.map_cons, List.map_nil, List.intercalate_singleton]

theorem recordChars_cons_cons (m m' : Member) (ms : List Member) :
    recordChars (m :: m' :: ms) = m.chars ++ ',' :: recordChars (m' :: ms) := by
  rw [recordChars, List.map_cons, List.map_cons, List.intercalate_cons_cons, List.append_assoc,
    List.append_assoc]
  rfl

theorem toList_objectText (ms : List Member) :
    (objectText (ms.map fun m => (m.name, m.text))).toList = '\x7b' :: recordChars ms := by
  have hchars : (fun m : Member => (quoted m.name ++ ":" ++ m.text).toList) = Member.chars := by
    funext m
    simp only [quoted, Member.chars, String.toList_append, List.append_assoc]
    rfl
  rw [objectText, String.toList_append, String.toList_append, String.toList_intercalate,
    List.map_map, List.map_map, List.append_assoc]
  exact congrArg (fun f => '\x7b' :: ([','].intercalate (ms.map f) ++ ['\x7d'])) hchars

section Members

variable (m : Member) {fuel : Nat} (hfuel : m.text.toList.length ≤ fuel) (rest : List Char)

include hfuel

theorem readMembers_last :
    readMembers (fuel + 1) (m.chars ++ '\x7d' :: rest) = some ([m.read], rest) := by
  have hread := m.reads fuel ('\x7d' :: rest) hfuel (endsNumber_cons (by decide))
  simp only [readMembers, Member.chars, List.cons_append, List.append_assoc,
    skipBlanks_cons (c := '"') rfl, skipBlanks_cons (c := ':') rfl,
    skipBlanks_cons (c := '\x7d') rfl, readText_plain m.plain, hread, Option.bind_eq_bind,
    Option.bind_some]
  rfl

theorem readMembers_more :
    readMembers (fuel + 1) (m.chars ++ ',' :: rest) =
      (readMembers fuel rest).map fun r => (m.read :: r.1, r.2) := by
  have hread := m.reads fuel (',' :: rest) hfuel (endsNumber_cons (by decide))
  simp only [readMembers, Member.chars, List.cons_append, List.append_assoc,
    skipBlanks_cons (c := '"') rfl, skipBlanks_cons (c := ':') rfl,
    skipBlanks_cons (c := ',') rfl, readText_plain m.plain, hread, Option.bind_eq_bind,
    Option.bind_some]
  cases readMembers fuel rest <;> rfl

end Members

/-- A member takes more room than the text of its value. -/
theorem Member.length_text_lt (m : Member) : m.text.toList.length < m.chars.length := by
  simp only [chars, List.length_cons, List.length_append]
  omega

theorem readMembers_record (m : Member) (ms : List Member) (rest : List Char) :
    ∀ fuel, (recordChars (m :: ms)).length ≤ fuel →
      readMembers fuel (recordChars (m :: ms) ++ rest) = some ((m :: ms).map Member.read, rest) := by
  have hlt := Member.length_text_lt
  induction ms generalizing m with
  | nil =>
    intro fuel hfuel
    rw [recordChars_singleton, List.length_append] at hfuel
    obtain ⟨fuel, rfl⟩ := Nat.exists_eq_add_of_le' (Nat.le_trans (Nat.succ_pos _) hfuel)
    rw [recordChars_singleton, List.append_assoc]
    exact readMembers_last m (by have := hlt m; omega) rest
  | cons m' ms ih =>
    intro fuel hfuel
    rw [recordChars_cons_cons, List.length_append, List.length_cons] at hfuel
    obtain ⟨fuel, rfl⟩ := Nat.exists_eq_add_of_le' (Nat.le_trans (Nat.succ_pos _) hfuel)
    rw [recordChars_cons_cons, List.append_assoc, List.cons_append,
      readMembers_more m (by have := hlt m; omega), ih m' fuel (by omega)]
    rfl

/-- The text of a record stands for an object with its members. -/
theorem reads_record (ms : List Member) :
    Reads (objectText (ms.map fun m => (m.name, m.text))).toList (object (ms.map Member.read)) := by
  intro fuel rest hfuel _
  rw [toList_objectText] at hfuel ⊢
  obtain ⟨fuel, rfl⟩ := Nat.exists_eq_add_of_le' (Nat.le_trans (Nat.succ_pos _) hfuel)
  rw [List.cons_append, readValue, skipBlanks_cons rfl]
  cases ms with
  | nil => rfl
  | cons m ms =>
    have hread := readMembers_record m ms rest fuel (Nat.le_of_succ_le_succ hfuel)
    obtain ⟨cs, hcs⟩ : ∃ cs, recordChars (m :: ms) ++ rest = '"' :: cs := by
      cases ms with
      | nil => exact ⟨_, by rw [recordChars_singleton]; rfl⟩
      | cons m' ms => exact ⟨_, by rw [recordChars_cons_cons]; rfl⟩
    rw [hcs] at hread ⊢
    simp only [skipBlanks_cons (c := '"') rfl]
    show (readMembers fuel ('"' :: cs)).map (fun r => (object r.1, r.2)) = _
    rw [hread]
    rfl

/-! ## Whole texts -/

/-- A text that stands for a value is read as it. -/
theorem parse?_of_reads {s : String} {j : Json} (h : Reads s.toList j) : parse? s = some j := by
  have hread := h (2 * s.toList.length + 1) [] (by omega) endsNumber_nil
  rw [List.append_nil] at hread
  simp only [parse?, hread, Option.bind_eq_bind, Option.bind_some]
  rfl

theorem mapM_eq_some {α β : Type} {f : α → Option β} {g : α → β} {l : List α}
    (h : ∀ a ∈ l, f a = some (g a)) : l.mapM f = some (l.map g) := by
  induction l with
  | nil => rfl
  | cons a l ih =>
    obtain ⟨ha, hl⟩ := List.forall_mem_cons.mp h
    rw [List.mapM_cons, ha, ih hl]
    rfl

section Fields

variable {ms : List Member} (h : (ms.map Member.name).Nodup)

include h

/-- A member is found by its name. -/
theorem onlyMember?_read {m : Member} (hm : m ∈ ms) :
    onlyMember? (ms.map Member.read) m.name = some m.value := by
  obtain ⟨before, after, rfl⟩ := List.append_of_mem hm
  rw [List.map_append, List.map_cons, List.nodup_append] at h
  obtain ⟨-, hafter, hbefore⟩ := h
  have hother : ∀ l : List Member, (∀ m' ∈ l, m'.name ≠ m.name) →
      (l.map Member.read).filter (fun x => x.1 == some m.name) = [] := by
    intro l hl
    refine List.filter_eq_nil_iff.mpr fun x hx => ?_
    obtain ⟨m', hm', rfl⟩ := List.mem_map.mp hx
    simpa [Member.read] using hl m' hm'
  have hfilter : ((before ++ m :: after).map Member.read).filter (fun x => x.1 == some m.name) =
      [m.read] := by
    rw [List.map_append, List.map_cons, List.filter_append, hother before, List.filter_cons_of_pos,
      hother after, List.nil_append]
    · intro m' hm' he
      exact (List.nodup_cons.mp hafter).1 (he ▸ List.mem_map_of_mem hm')
    · exact BEq.rfl
    · intro m' hm'
      exact hbefore _ (List.mem_map_of_mem hm') _ List.mem_cons_self
  rw [onlyMember?, hfilter]
  rfl

/-- The fields of a record are found by their names. -/
theorem toFields?_read :
    toFields? (ms.map Member.name) (object (ms.map Member.read)) = some (ms.map Member.value) := by
  have hnamed : (ms.map Member.read).all (fun x => x.1.isSome) = true := by
    rw [List.all_map]
    exact List.all_eq_true.mpr fun _ _ => rfl
  rw [toFields?, if_pos hnamed, List.mapM_map]
  exact mapM_eq_some fun m hm => onlyMember?_read h hm

end Fields

/-- A count of at most 64 bits is taken from its number. -/
theorem toCount?_natural {n : Nat} (h : n < UInt64.size) : (natural n).toCount? = some n :=
  if_pos h

namespace Member

def count (name : String) (n : Nat) (h : Plain name.toList) : Member :=
  ⟨name, toString n, natural n, h, reads_natural n⟩

def flag (name : String) (b : Bool) (h : Plain name.toList) : Member :=
  ⟨name, toString b, bool b, h, reads_bool b⟩

end Member

end Json

open Json

/-! ## What is written is read back -/

theorem BlockId.read_toJson {id : BlockId} (h : id.val < UInt64.size) :
    (parse? id.toJson).bind BlockId.ofJson? = some id := by
  rw [toJson, parse?_of_reads (reads_natural id.val), Option.bind_some, ofJson?, toCount?_natural h]
  rfl

theorem NodeKind.read_toJson (k : NodeKind) : (parse? k.toJson).bind NodeKind.ofJson? = some k := by
  cases k with
  | internal => rw [toJson, parse?_of_reads (reads_quoted (by decide))]; rfl
  | leaf => rw [toJson, parse?_of_reads (reads_quoted (by decide))]; rfl

theorem IndexKind.read_toJson (k : IndexKind) :
    (parse? k.toJson).bind IndexKind.ofJson? = some k := by
  cases k with
  | btree => rw [toJson, parse?_of_reads (reads_quoted (by decide))]; rfl
  | bplustree => rw [toJson, parse?_of_reads (reads_quoted (by decide))]; rfl

theorem StoreConfig.read_toJson {c : StoreConfig} (h : c.cacheBlocks < UInt64.size) :
    (parse? c.toJson).bind StoreConfig.ofJson? = some c := by
  let ms : List Member :=
    [.count "cache_blocks" c.cacheBlocks (by decide),
      .flag "fsync_enabled" c.fsyncEnabled (by decide)]
  have hread : parse? c.toJson = some (object (ms.map Member.read)) :=
    parse?_of_reads (reads_record ms)
  have hnames : ["cache_blocks", "fsync_enabled"].Nodup := by decide
  have hfields : toFields? ["cache_blocks", "fsync_enabled"] (object (ms.map Member.read)) =
      some [natural c.cacheBlocks, bool c.fsyncEnabled] := @toFields?_read ms hnames
  rw [hread, Option.bind_some, ofJson?, hfields]
  simp only [Option.bind_eq_bind, Option.bind_some, toCount?_natural h]
  rfl

theorem TreeStats.read_toJson {s : TreeStats} (hheight : s.height < UInt64.size)
    (hinternal : s.internalPages < UInt64.size) (hleaf : s.leafPages < UInt64.size)
    (hkeys : s.keys < UInt64.size) : (parse? s.toJson).bind TreeStats.ofJson? = some s := by
  let ms : List Member :=
    [.count "height" s.height (by decide), .count "internal_pages" s.internalPages (by decide),
      .count "leaf_pages" s.leafPages (by decide), .count "keys" s.keys (by decide)]
  have hread : parse? s.toJson = some (object (ms.map Member.read)) :=
    parse?_of_reads (reads_record ms)
  have hnames : ["height", "internal_pages", "leaf_pages", "keys"].Nodup := by decide
  have hfields : toFields? ["height", "internal_pages", "leaf_pages", "keys"]
      (object (ms.map Member.read)) =
        some [natural s.height, natural s.internalPages, natural s.leafPages, natural s.keys] :=
    @toFields?_read ms hnames
  rw [hread, Option.bind_some, ofJson?, hfields]
  simp only [Option.bind_eq_bind, Option.bind_some, toCount?_natural hheight,
    toCount?_natural hinternal, toCount?_natural hleaf, toCount?_natural hkeys]
  rfl

end PagedIndex
