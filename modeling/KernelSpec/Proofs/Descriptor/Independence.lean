import KernelSpec.Proofs.Descriptor.Render
import KernelSpec.Proofs.Descriptor.Substitution
import KernelSpec.Proofs.Text.Bytes

/-! # Rendering succeeds for every directory or for none

The texts that a template gives for two absolute directories differ only in what stands after
slashes (`Alike`). Inside of a string the rest of a directory is read whole, since it was escaped;
anywhere else the slash before it is refused already. So one of the two texts is read when the
other one is (`read_alike`), and merging fails for both values or for none: the name `env` has no
slash in it. Nothing is asked of the template.
-/

namespace KernelSpec.Descriptor

open Json

/-- Texts that differ only in what stands after slashes; there both have text as it is written in
strings. -/
inductive Alike : List Char → List Char → Prop
  | nil : Alike [] []
  | char {c : Char} {cs ds : List Char} (other : c ≠ '/') (later : Alike cs ds) :
      Alike (c :: cs) (c :: ds)
  | slash (p q : List Char) {cs ds : List Char} (later : Alike cs ds) :
      Alike ('/' :: (escapeChars p ++ cs)) ('/' :: (escapeChars q ++ ds))

theorem Alike.symm {cs ds : List Char} (alike : Alike cs ds) : Alike ds cs := by
  induction alike with
  | nil => exact .nil
  | char other _ ih => exact .char other ih
  | slash p q _ ih => exact .slash q p ih

theorem Alike.cons {cs ds : List Char} (alike : Alike cs ds) (c : Char) :
    Alike (c :: cs) (c :: ds) := by
  by_cases slash : c = '/'
  · subst slash
    exact .slash [] [] alike
  · exact .char slash alike

theorem Alike.head? {cs ds : List Char} (alike : Alike cs ds) : ds.head? = cs.head? := by
  cases alike <;> rfl

theorem Alike.of_cons {c : Char} {cs ds : List Char} (alike : Alike (c :: cs) ds)
    (other : c ≠ '/') : ∃ es, ds = c :: es ∧ Alike cs es := by
  cases alike with
  | char _ later => exact ⟨_, rfl, later⟩
  | slash => exact absurd rfl other

theorem Alike.of_slash {cs ds : List Char} (alike : Alike ('/' :: cs) ds) :
    ∃ p q after other, cs = escapeChars p ++ after ∧ ds = '/' :: (escapeChars q ++ other) ∧
      Alike after other := by
  cases alike with
  | char other => exact absurd rfl other
  | slash p q later => exact ⟨p, q, _, _, rfl, rfl, later⟩

theorem Alike.of_append {used cs ds : List Char} (alike : Alike (used ++ cs) ds)
    (free : ∀ c ∈ used, c ≠ '/') : ∃ es, ds = used ++ es ∧ Alike cs es := by
  induction used generalizing ds with
  | nil => exact ⟨ds, rfl, alike⟩
  | cons c used ih =>
    obtain ⟨here, later⟩ := List.forall_mem_cons.mp free
    obtain ⟨tail, rfl, onward⟩ := alike.of_cons here
    obtain ⟨es, rfl, after⟩ := ih onward later
    exact ⟨es, rfl, after⟩

theorem alike_fill (p q cs : List Char) :
    Alike (fill ('/' :: escapeChars p) cs) (fill ('/' :: escapeChars q) cs) := by
  have replaced := replaced_fill ('/' :: escapeChars p) cs
  generalize fill ('/' :: escapeChars p) cs = filled at replaced ⊢
  induction replaced with
  | nil => exact .nil
  | here _ ih =>
    rw [fill_token_append]
    exact .slash p q ih
  | @keep c cs _ absent _ ih =>
    have notHere : token.toList.isPrefixOf (c :: cs) = false :=
      Bool.eq_false_iff.mpr fun here => absent (List.isPrefixOf_iff_prefix.mp here)
    rw [fill, Text.replaceAll_cons_of_not_isPrefixOf _ notHere]
    exact ih.cons c

/-! ## Outside of strings -/

theorem Alike.skipBlank {cs ds : List Char} (alike : Alike cs ds) :
    Alike (skipBlank cs) (skipBlank ds) := by
  induction alike with
  | nil => exact .nil
  | @char c cs ds other later ih =>
    by_cases blank : isBlank c = true
    · simpa only [Json.skipBlank, List.dropWhile_cons_of_pos blank] using ih
    · simpa only [Json.skipBlank, List.dropWhile_cons_of_neg blank] using .char other later
  | slash p q later => exact .slash p q later

theorem Alike.after_blank {cs ds rest : List Char} {c : Char} (alike : Alike cs ds)
    (found : Json.skipBlank cs = c :: rest) (other : c ≠ '/') :
    ∃ left, Json.skipBlank ds = c :: left ∧ Alike rest left := by
  have skipped := alike.skipBlank
  rw [found] at skipped
  exact skipped.of_cons other

theorem Alike.after_word {cs ds rest : List Char} (alike : Alike cs ds) (word : List Char)
    (found : Json.skipBlank cs = word ++ rest) (free : ∀ c ∈ word, c ≠ '/') :
    ∃ left, Json.skipBlank ds = word ++ left ∧ Alike rest left := by
  have skipped := alike.skipBlank
  rw [found] at skipped
  exact skipped.of_append free

/-- What begins with some character after blanks begins with it in the other text too. -/
theorem Alike.starts {cs ds more : List Char} {c : Char} (alike : Alike cs ds)
    (found : Json.skipBlank cs = c :: more) :
    ∃ left, Json.skipBlank ds = c :: left ∧ Alike (c :: more) (c :: left) := by
  have skipped := alike.skipBlank
  rw [found] at skipped
  obtain ⟨left, same⟩ := List.head?_eq_some_iff.mp skipped.head?
  rw [same] at skipped
  exact ⟨left, same, skipped⟩

theorem number_alike {cs ds rest : List Char} {n : Number} (read : number cs = .ok (n, rest))
    (alike : Alike cs ds) : ∃ left, number ds = .ok (n, left) ∧ Alike rest left := by
  obtain ⟨used, rfl, chars, again⟩ := number_local cs read
  obtain ⟨left, rfl, onward⟩ :=
    alike.of_append fun c mem => ne_of_isNumberChar (chars c mem) (by decide)
  exact ⟨left, again left (.inl onward.head?), onward⟩

/-! ## Inside of strings -/

/-- Text as it is written in strings is read as itself. -/
theorem stringBody_of_escapeChars {text cs ds rest : List Char}
    (body : StringBody (escapeChars text ++ cs) ds rest) :
    ∃ es, ds = text ++ es ∧ StringBody cs es rest := by
  induction text generalizing ds with
  | nil => exact ⟨ds, rfl, body⟩
  | cons c text ih =>
    rw [escapeChars, List.flatMap_cons, List.append_assoc] at body
    have inner : ∃ es, ds = c :: es ∧ StringBody (escapeChars text ++ cs) es rest := by
      obtain ⟨same, notQuote, notBackslash, _⟩ | ⟨escaped, same, again⟩ := escapeChar_cases c
      · rw [same] at body
        cases body with
        | close => exact absurd rfl notQuote
        | escaped => exact absurd rfl notBackslash
        | plain _ _ _ tail => exact ⟨_, rfl, tail⟩
      · rw [same] at body
        cases body with
        | escaped read tail =>
          obtain ⟨rfl, rfl⟩ := Prod.mk.inj (Except.ok.inj ((again _).symm.trans read))
          exact ⟨_, rfl, tail⟩
        | plain _ notBackslash => exact absurd rfl notBackslash
    obtain ⟨es, rfl, tail⟩ := inner
    obtain ⟨es, rfl, remaining⟩ := ih tail
    exact ⟨es, rfl, remaining⟩

/-- An escape is the same in both texts, or an escaped slash after which a directory goes on. -/
theorem escape_alike {cs ds rest : List Char} {d : Char} (read : escape cs = .ok (d, rest))
    (alike : Alike cs ds) :
    (∃ left, escape ds = .ok (d, left) ∧ Alike rest left) ∨
      d = '/' ∧ ∃ p q after other, rest = escapeChars p ++ after ∧
        escape ds = .ok ('/', escapeChars q ++ other) ∧ Alike after other := by
  obtain ⟨used, rfl, chars, again⟩ := escape_local read
  rcases chars with ⟨c, rfl, short⟩ | units
  · by_cases slash : c = '/'
    · subst slash
      obtain ⟨p, q, after, other, rfl, rfl, onward⟩ := alike.of_slash
      have spelled : d = '/' := by
        simpa [shortEscapes] using short
      exact .inr ⟨spelled, p, q, after, other, rfl, rfl, onward⟩
    · obtain ⟨left, rfl, onward⟩ := alike.of_cons slash
      exact .inl ⟨left, again left, onward⟩
  · have free : ∀ c ∈ used, c ≠ '/' := by
      rintro c mem rfl
      exact absurd (units _ mem) (by decide)
    obtain ⟨left, rfl, onward⟩ := alike.of_append free
    exact .inl ⟨left, again left, onward⟩

/-- Names that are the same, or that both have a slash in them. -/
def Kin (name other : List Char) : Prop := name = other ∨ '/' ∈ name ∧ '/' ∈ other

theorem Kin.cons {name other : List Char} (kin : Kin name other) (c : Char) :
    Kin (c :: name) (c :: other) := by
  rcases kin with rfl | ⟨left, right⟩
  · exact .inl rfl
  · exact .inr ⟨.tail c left, .tail c right⟩

theorem kin_slash (name other : List Char) : Kin ('/' :: name) ('/' :: other) :=
  .inr ⟨.head _, .head _⟩

theorem stringBody_alike {cs ds es rest : List Char} (body : StringBody cs es rest)
    (alike : Alike cs ds) :
    ∃ fs left, StringBody ds fs left ∧ Alike rest left ∧ Kin es fs := by
  -- A directory is taken whole where it stands, so the induction is on the length of the text.
  cases body with
  | close rest =>
    obtain ⟨left, rfl, onward⟩ := alike.of_cons (by decide)
    exact ⟨[], left, .close left, onward, .inl rfl⟩
  | @escaped cs mid _ es d read tail =>
    obtain ⟨ds, rfl, onward⟩ := alike.of_cons (by decide)
    rcases escape_alike read onward with
      ⟨_, read', onward⟩ | ⟨rfl, p, q, after, other, rfl, read', onward⟩
    · obtain ⟨fs, left, tail', onward, kin⟩ := stringBody_alike tail onward
      exact ⟨d :: fs, left, .escaped read' tail', onward, kin.cons d⟩
    · obtain ⟨es, rfl, inner⟩ := stringBody_of_escapeChars tail
      obtain ⟨fs, left, tail', onward, _⟩ := stringBody_alike inner onward
      exact ⟨_, left, .escaped read' (tail'.escapeChars_append q), onward, kin_slash _ _⟩
  | @plain c cs _ es notQuote notBackslash printable tail =>
    by_cases slash : c = '/'
    · subst slash
      obtain ⟨p, q, after, other, rfl, rfl, onward⟩ := alike.of_slash
      obtain ⟨es, rfl, inner⟩ := stringBody_of_escapeChars tail
      obtain ⟨fs, left, tail', onward, _⟩ := stringBody_alike inner onward
      exact ⟨_, left, .plain notQuote notBackslash printable (tail'.escapeChars_append q), onward,
        kin_slash _ _⟩
    · obtain ⟨ds, rfl, onward⟩ := alike.of_cons slash
      obtain ⟨fs, left, tail', onward, kin⟩ := stringBody_alike tail onward
      exact ⟨c :: fs, left, .plain notQuote notBackslash printable tail', onward, kin.cons c⟩
termination_by cs.length
decreasing_by
  · subst_vars
    exact Nat.lt_succ_of_lt (escape_consumes read)
  · subst_vars
    have shorter := escape_consumes read
    simp only [List.length_append, List.length_cons] at shorter ⊢
    omega
  · subst_vars
    simp only [List.length_append, List.length_cons]
    omega
  · subst_vars
    exact Nat.lt_succ_self _

/-! ## What merging looks at -/

def isObject : Value → Bool
  | .object _ => true
  | _ => false

/-- Whether there is a member `env`, and whether it is an object. -/
def envShape (members : Dictionary Value) : Option Bool := (members.get? envKey).map isObject

/-- All that decides whether variables can be merged into a value. -/
def shape : Value → Option (Option Bool)
  | .object members => some (envShape members)
  | _ => none

theorem isObject_eq (v : Value) : isObject v = (shape v).isSome := by
  cases v <;> rfl

theorem envShape_insert {members others : Dictionary Value} {name other : String} {v w : Value}
    (env : envShape members = envShape others) (kin : Kin name.toList other.toList)
    (same : shape v = shape w) :
    envShape (members.insert name v) = envShape (others.insert other w) := by
  have objects : isObject v = isObject w := by rw [isObject_eq, isObject_eq, same]
  unfold envShape at env ⊢
  rw [Dictionary.get?_insert, Dictionary.get?_insert]
  rcases kin with equal | ⟨left, right⟩
  · rw [String.toList_inj.mp equal]
    split
    · exact congrArg some objects
    · exact env
  · have free : '/' ∉ envKey.toList := by decide
    have notLeft : envKey ≠ name := fun key => free (key ▸ left)
    have notRight : envKey ≠ other := fun key => free (key ▸ right)
    rw [if_neg notLeft, if_neg notRight, env]

theorem envMembers_cases (members : Dictionary Value) :
    envShape members = some false ∧ envMembers members = .error .envNotObject ∨
      envShape members ≠ some false ∧ ∃ own, envMembers members = .ok own := by
  unfold envShape envMembers
  split
  · next missing => exact .inr ⟨by simp [missing], _, rfl⟩
  · next found => exact .inr ⟨by simp [found, isObject], _, rfl⟩
  · next v notObject found =>
    refine .inl ⟨?_, rfl⟩
    rw [found]
    cases v with
    | object env => exact absurd rfl (notObject env)
    | _ => rfl

/-- Into values of the same shape variables are merged, or the merge fails for the same reason. -/
theorem mergeEnv_of_shape {v w : Value} (same : shape v = shape w) (overrides : Overrides) :
    (∃ a b, mergeEnv overrides v = .ok a ∧ mergeEnv overrides w = .ok b) ∨
      ∃ reason, mergeEnv overrides v = .error reason ∧ mergeEnv overrides w = .error reason := by
  cases v with
  | object members =>
    cases w with
    | object others =>
      have env : envShape members = envShape others := Option.some.inj same
      rcases envMembers_cases members with ⟨wrong, failed⟩ | ⟨right, own, found⟩
      · rcases envMembers_cases others with ⟨_, failed'⟩ | ⟨right, _⟩
        · exact .inr ⟨.envNotObject, by rw [mergeEnv_object, failed]; rfl,
            by rw [mergeEnv_object, failed']; rfl⟩
        · exact absurd (env.symm.trans wrong) right
      · rcases envMembers_cases others with ⟨wrong, _⟩ | ⟨_, own', found'⟩
        · exact absurd (env.trans wrong) right
        · exact .inl ⟨_, _, by rw [mergeEnv_object, found]; rfl,
            by rw [mergeEnv_object, found']; rfl⟩
    | _ => cases same
  | _ =>
    cases w with
    | object others => cases same
    | _ => exact .inr ⟨.notObject, rfl, rfl⟩

/-! ## Values -/

/-- What is spelled in one text is spelled in the other one, by a value of the same shape. -/
def Agrees (item : Spelling Value) : Prop :=
  ∀ ⦃cs : List Char⦄ ⦃v : Value⦄ ⦃rest ds : List Char⦄, item cs v rest → Alike cs ds →
    ∃ w left, item ds w left ∧ Alike rest left ∧ shape v = shape w

section Composite

variable {item : Spelling Value} (agrees : Agrees item)

include agrees

theorem arrayTail_alike {cs ds rest : List Char} {vs : List Value}
    (tail : ArrayTail item cs vs rest) (alike : Alike cs ds) :
    ∃ ws left, ArrayTail item ds ws left ∧ Alike rest left := by
  induction tail generalizing ds with
  | close ends =>
    obtain ⟨left, ends', onward⟩ := alike.after_blank ends (by decide)
    exact ⟨[], left, .close ends', onward⟩
  | next comma starts goesOn head _ ih =>
    obtain ⟨mid, comma', onward⟩ := alike.after_blank comma (by decide)
    obtain ⟨more, starts', onward⟩ := onward.starts starts
    obtain ⟨w, after, head', onward, _⟩ := agrees head onward
    obtain ⟨ws, left, tail', onward⟩ := ih onward
    exact ⟨w :: ws, left, .next comma' starts' goesOn head' tail', onward⟩

theorem arrayBody_alike {cs ds rest : List Char} {vs : List Value}
    (body : ArrayBody item cs vs rest) (alike : Alike cs ds) :
    ∃ ws left, ArrayBody item ds ws left ∧ Alike rest left := by
  cases body with
  | empty ends =>
    obtain ⟨left, ends', onward⟩ := alike.after_blank ends (by decide)
    exact ⟨[], left, .empty ends', onward⟩
  | items starts goesOn head tail =>
    obtain ⟨more, starts', onward⟩ := alike.starts starts
    obtain ⟨w, after, head', onward, _⟩ := agrees head onward
    obtain ⟨ws, left, tail', onward⟩ := arrayTail_alike agrees tail onward
    exact ⟨w :: ws, left, .items starts' goesOn head' tail', onward⟩

theorem member_alike {cs ds rest : List Char} {name : String} {v : Value}
    (entry : Member item cs (name, v) rest) (alike : Alike cs ds) :
    ∃ other w left, Member item ds (other, w) left ∧ Alike rest left ∧
      Kin name.toList other.toList ∧ shape v = shape w := by
  cases entry with
  | mk named colon holds =>
    obtain ⟨other, mid, named', onward, kin⟩ := stringBody_alike named alike
    obtain ⟨after, colon', onward⟩ := onward.after_blank colon (by decide)
    obtain ⟨w, left, holds', onward, same⟩ := agrees holds onward
    refine ⟨String.ofList other, w, left, .mk ?_ colon' holds', onward, ?_, same⟩
    · rwa [String.toList_ofList]
    · rwa [String.toList_ofList]

theorem objectTail_alike {members final others : Dictionary Value} {cs ds rest : List Char}
    (tail : ObjectTail item members cs final rest) (alike : Alike cs ds)
    (env : envShape members = envShape others) :
    ∃ final' left, ObjectTail item others ds final' left ∧ Alike rest left ∧
      envShape final = envShape final' := by
  induction tail generalizing ds others with
  | close ends =>
    obtain ⟨left, ends', onward⟩ := alike.after_blank ends (by decide)
    exact ⟨others, left, .close ends', onward, env⟩
  | next comma starts head _ ih =>
    obtain ⟨mid, comma', onward⟩ := alike.after_blank comma (by decide)
    obtain ⟨more, starts', onward⟩ := onward.after_blank starts (by decide)
    obtain ⟨other, w, after, head', onward, kin, same⟩ := member_alike agrees head onward
    obtain ⟨final', left, tail', onward, env'⟩ := ih onward (envShape_insert env kin same)
    exact ⟨final', left, .next comma' starts' head' tail', onward, env'⟩

theorem objectBody_alike {members : Dictionary Value} {cs ds rest : List Char}
    (body : ObjectBody item cs members rest) (alike : Alike cs ds) :
    ∃ others left, ObjectBody item ds others left ∧ Alike rest left ∧
      envShape members = envShape others := by
  cases body with
  | empty ends =>
    obtain ⟨left, ends', onward⟩ := alike.after_blank ends (by decide)
    exact ⟨[], left, .empty ends', onward, rfl⟩
  | members starts head tail =>
    obtain ⟨more, starts', onward⟩ := alike.after_blank starts (by decide)
    obtain ⟨other, w, after, head', onward, kin, same⟩ := member_alike agrees head onward
    obtain ⟨others, left, tail', onward, env⟩ :=
      objectTail_alike agrees tail onward (envShape_insert rfl kin same)
    exact ⟨others, left, .members starts' head' tail', onward, env⟩

end Composite

theorem agrees_valueOf {inner? : Option (Spelling Value)} (agrees : ∀ item ∈ inner?, Agrees item) :
    Agrees (ValueOf inner?) := by
  intro cs v rest ds spelled alike
  cases spelled with
  | null found =>
    obtain ⟨left, found', onward⟩ := alike.after_word ['n', 'u', 'l', 'l'] found (by simp)
    exact ⟨.null, left, .null found', onward, rfl⟩
  | yes found =>
    obtain ⟨left, found', onward⟩ := alike.after_word ['t', 'r', 'u', 'e'] found (by simp)
    exact ⟨.bool true, left, .yes found', onward, rfl⟩
  | no found =>
    obtain ⟨left, found', onward⟩ := alike.after_word ['f', 'a', 'l', 's', 'e'] found (by simp)
    exact ⟨.bool false, left, .no found', onward, rfl⟩
  | string found body =>
    obtain ⟨mid, found', onward⟩ := alike.after_blank found (by decide)
    obtain ⟨s, left, body', onward, _⟩ := stringBody_alike body onward
    refine ⟨.string (String.ofList s), left, .string found' ?_, onward, rfl⟩
    rwa [String.toList_ofList]
  | array found opens body =>
    obtain ⟨mid, found', onward⟩ := alike.after_blank found (by decide)
    obtain ⟨ws, left, body', onward⟩ := arrayBody_alike (agrees _ opens) body onward
    exact ⟨.array ws, left, .array found' opens body', onward, rfl⟩
  | object found opens body =>
    obtain ⟨mid, found', onward⟩ := alike.after_blank found (by decide)
    obtain ⟨others, left, body', onward, env⟩ := objectBody_alike (agrees _ opens) body onward
    exact ⟨.object others, left, .object found' opens body', onward, congrArg some env⟩
  | @number _ _ _ _ n found starts read =>
    obtain ⟨more, found', onward⟩ := alike.starts found
    obtain ⟨left, read', onward⟩ := number_alike read onward
    exact ⟨.number n, left, .number found' starts read', onward, rfl⟩

theorem agrees_spells (depth : Nat) : Agrees (Spells depth) := by
  induction depth with
  | zero => exact agrees_valueOf (by simp)
  | succ depth ih => exact agrees_valueOf (by simpa using ih)

/-- One of two texts that are alike is read when the other one is. -/
theorem read_alike {cs ds : List Char} (alike : Alike cs ds) {v : Value}
    (parsed : Json.read (String.ofList cs) = .ok v) :
    ∃ w, Json.read (String.ofList ds) = .ok w ∧ shape v = shape w := by
  obtain ⟨rest, spelled, ends⟩ := read_eq_ok_iff.mp parsed
  rw [String.toList_ofList] at spelled
  obtain ⟨w, left, spelled', onward, same⟩ := agrees_spells maxDepth spelled alike
  have ends' : skipBlank left = [] := by
    have skipped := onward.skipBlank
    rw [ends] at skipped
    exact List.head?_eq_none_iff.mp skipped.head?
  refine ⟨w, read_eq_ok_iff.mpr ⟨left, ?_, ends'⟩, same⟩
  rwa [String.toList_ofList]

/-! ## Directories -/

/-- The text of an absolute path begins with a slash. -/
theorem text_of_isAbsolute {dir : Path} {text : String} (utf8 : dir.bytes.text? = some text)
    (absolute : dir.isAbsolute = true) : ∃ more, text.toList = '/' :: more := by
  have bytes : dir.bytes = text.toList.flatMap String.utf8EncodeChar := by
    rw [← Bytes.ofString_of_text? utf8, Bytes.ofString_eq]
  have first : dir.bytes.head? = some Path.slash := beq_iff_eq.mp absolute
  rw [bytes] at first
  cases chars : text.toList with
  | nil =>
    rw [chars] at first
    cases first
  | cons c more =>
    rw [chars, List.flatMap_cons, List.head?_append_of_ne_nil] at first
    · exact ⟨more, by rw [Bytes.eq_slash_of_head? first]⟩
    · exact String.utf8EncodeChar_ne_nil

theorem render_eq {fs : FileSystem} {path dir : Path} {template text : String}
    (found : readTemplate fs path = .ok template) (utf8 : dir.bytes.text? = some text)
    (overrides : Overrides) :
    render fs path dir overrides =
      ((Json.read (String.ofList (fill (escapeChars text.toList) template.toList))).mapError
        (.templateParseFailed path)).bind
          fun value => (mergeEnv overrides value).mapError .invalidDescriptor := by
  simp only [render, renderText, found, substitute_eq_ok utf8, bind, Except.bind]

/-- Whether a template is rendered does not depend on the directory: for two absolute directories
both are rendered, or both texts are no JSON, or both values are no descriptor. -/
theorem render_directory {fs : FileSystem} {path p q : Path} {template textP textQ : String}
    (found : readTemplate fs path = .ok template) (utf8P : p.bytes.text? = some textP)
    (utf8Q : q.bytes.text? = some textQ) (absoluteP : p.isAbsolute = true)
    (absoluteQ : q.isAbsolute = true) (overrides : Overrides) :
    (∃ a b, render fs path p overrides = .ok a ∧ render fs path q overrides = .ok b) ∨
    (∃ e f, render fs path p overrides = .error (.templateParseFailed path e) ∧
      render fs path q overrides = .error (.templateParseFailed path f)) ∨
    ∃ reason, render fs path p overrides = .error (.invalidDescriptor reason) ∧
      render fs path q overrides = .error (.invalidDescriptor reason) := by
  obtain ⟨moreP, slashP⟩ := text_of_isAbsolute utf8P absoluteP
  obtain ⟨moreQ, slashQ⟩ := text_of_isAbsolute utf8Q absoluteQ
  have alike : Alike (fill (escapeChars textP.toList) template.toList)
      (fill (escapeChars textQ.toList) template.toList) := by
    rw [slashP, slashQ]
    exact alike_fill moreP moreQ _
  rw [render_eq found utf8P, render_eq found utf8Q]
  cases readP : Json.read (String.ofList (fill (escapeChars textP.toList) template.toList)) with
  | ok v =>
    obtain ⟨w, readQ, same⟩ := read_alike alike readP
    rw [readQ]
    rcases mergeEnv_of_shape same overrides with
      ⟨a, b, mergedP, mergedQ⟩ | ⟨reason, failedP, failedQ⟩
    · exact .inl ⟨a, b, mapError_eq_ok_iff.mpr mergedP, mapError_eq_ok_iff.mpr mergedQ⟩
    · refine .inr (.inr ⟨reason, ?_, ?_⟩)
      · simp only [Except.mapError, Except.bind, failedP]
      · simp only [Except.mapError, Except.bind, failedQ]
  | error e =>
    cases readQ : Json.read (String.ofList (fill (escapeChars textQ.toList) template.toList)) with
    | ok w =>
      obtain ⟨v, read, _⟩ := read_alike alike.symm readQ
      rw [readP] at read
      cases read
    | error f => exact .inr (.inl ⟨e, f, rfl, rfl⟩)

/-- The token after a backslash and in names, which one of the directories makes equal. -/
def escapedTemplate : String :=
  "\x7b\"\\@KERNEL_INSTALL_DIRECTORY@\": [\"@\"], \"/k\": 1, \"env\": \x7b\x7d\x7d"

def escapedFiles : FileSystem :=
  ⟨.dir [(Bytes.ofString "t", .file (Bytes.ofString escapedTemplate) false)], []⟩

theorem render_directory_escaped :
    readTemplate escapedFiles (.ofString "/t") = .ok escapedTemplate ∧
      ∃ a b, render escapedFiles (.ofString "/t") (.ofString "/k") [] = .ok a ∧
        render escapedFiles (.ofString "/t") (.ofString "/\"\\\n\"env") [] = .ok b := by
  have found : readTemplate escapedFiles (.ofString "/t") = .ok escapedTemplate := by
    decide +kernel
  have rendered : ∃ a, render escapedFiles (.ofString "/t") (.ofString "/k") [] = .ok a :=
    ⟨.object [("/k", .number (.integer 1)), ("env", .object [])], by cbv⟩
  refine ⟨found, ?_⟩
  rcases render_directory found (Bytes.text?_ofString "/k") (Bytes.text?_ofString "/\"\\\n\"env")
    (by decide +kernel) (by decide +kernel) [] with both | ⟨_, _, failed, _⟩ | ⟨_, failed, _⟩
  · exact both
  · obtain ⟨_, ok⟩ := rendered
    exact absurd (ok.symm.trans failed) (by simp)
  · obtain ⟨_, ok⟩ := rendered
    exact absurd (ok.symm.trans failed) (by simp)

end KernelSpec.Descriptor
