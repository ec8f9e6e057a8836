import KernelSpec.Path
import Mathlib

/-! # The segments of written paths

Paths are joined and cut on their bytes; here this is said of their segments. Joining a name adds a
segment (`segments_join`), and the path above another one has a first part of its segments
(`segments_parent?`).
-/

namespace KernelSpec.Path

theorem splitSlash_ne_nil (bytes : Bytes) : splitSlash bytes ≠ [] := by
  cases bytes with
  | nil => simp [splitSlash]
  | cons b rest =>
    rw [splitSlash]
    split
    · simp
    · split <;> simp

theorem splitSlash_append (bytes more : Bytes) :
    splitSlash (bytes ++ slash :: more) = splitSlash bytes ++ splitSlash more := by
  induction bytes with
  | nil => simp [splitSlash]
  | cons b rest ih =>
    simp only [List.cons_append, splitSlash]
    split
    · rw [ih, List.cons_append]
    · rw [ih]
      cases parts : splitSlash rest with
      | nil => exact absurd parts (splitSlash_ne_nil rest)
      | cons part parts => rfl

theorem splitSlash_of_not_mem {bytes : Bytes} (noSlash : slash ∉ bytes) :
    splitSlash bytes = [bytes] := by
  induction bytes with
  | nil => rfl
  | cons b rest ih =>
    obtain ⟨other, noSlash⟩ := not_or.mp (mt List.mem_cons.mpr noSlash)
    rw [splitSlash, if_neg (Ne.symm other), ih noSlash]

theorem not_mem_of_mem_splitSlash {bytes part : Bytes} (mem : part ∈ splitSlash bytes) :
    slash ∉ part := by
  induction bytes generalizing part with
  | nil =>
    obtain rfl := List.mem_singleton.mp mem
    simp
  | cons b rest ih =>
    rw [splitSlash] at mem
    split at mem
    · obtain rfl | later := List.mem_cons.mp mem
      · simp
      · exact ih later
    · next other =>
      cases parts : splitSlash rest with
      | nil => exact absurd parts (splitSlash_ne_nil rest)
      | cons first others =>
        rw [parts] at mem ih
        obtain rfl | later := List.mem_cons.mp mem
        · exact mt List.mem_cons.mp (not_or.mpr ⟨Ne.symm other, ih List.mem_cons_self⟩)
        · exact ih (List.mem_cons_of_mem _ later)

theorem segments_append (bytes more : Bytes) :
    segments ⟨bytes ++ slash :: more⟩ = segments ⟨bytes⟩ ++ segments ⟨more⟩ := by
  simp only [segments, splitSlash_append, List.filterMap_append]

theorem segments_append_slash (bytes : Bytes) : segments ⟨bytes ++ [slash]⟩ = segments ⟨bytes⟩ := by
  rw [segments_append]
  exact List.append_nil _

/-- The bytes name an object of a directory: they are not empty, not `.` and not `..`, and no slash
is among them. -/
def IsName (name : Name) : Prop := segments ⟨name⟩ = [.name name]

instance (name : Name) : Decidable (IsName name) := inferInstanceAs (Decidable (_ = _))

theorem eq_of_segmentOf? {part name : Bytes} (spelled : segmentOf? part = some (.name name)) :
    part = name := by
  unfold segmentOf? at spelled
  split_ifs at spelled
  · cases spelled
  · cases spelled
  · cases spelled
    rfl

theorem isName_of_mem_segments {p : Path} {name : Name} (mem : Segment.name name ∈ p.segments) :
    IsName name := by
  obtain ⟨part, isPart, spelled⟩ := List.mem_filterMap.mp mem
  obtain rfl := eq_of_segmentOf? spelled
  rw [IsName, segments, splitSlash_of_not_mem (not_mem_of_mem_splitSlash isPart)]
  simp [spelled]

theorem IsName.not_mem {name : Name} (isName : IsName name) : slash ∉ name := by
  have mem : Segment.name name ∈ segments ⟨name⟩ := by
    rw [isName]
    exact List.mem_singleton_self _
  obtain ⟨part, mem, spelled⟩ := List.mem_filterMap.mp mem
  obtain rfl := eq_of_segmentOf? spelled
  exact not_mem_of_mem_splitSlash mem

/-! ## Joining -/

section Join

variable {p q : Path} (noSlash : slash ∉ q.bytes)

include noSlash

theorem isAbsolute_of_not_mem : q.isAbsolute = false := by
  unfold isAbsolute
  cases bytes : q.bytes with
  | nil => rfl
  | cons b rest =>
    have other : b ≠ slash := fun same => noSlash (by rw [bytes, same]; exact List.mem_cons_self)
    simpa using other

/-- A slash is put between the two unless the first is empty or ends in one. -/
theorem join_bytes (p : Path) : ∃ between, (p.join q).bytes = p.bytes ++ between ++ q.bytes ∧
    (between = [slash] ∧ p.bytes ≠ [] ∨ between = [] ∧ (p.bytes = [] ∨ p.endsInSlash = true)) := by
  unfold join
  rw [isAbsolute_of_not_mem noSlash]
  by_cases closed : (p.isEmpty || p.endsInSlash) = true
  · refine ⟨[], by simp [closed], .inr ⟨rfl, ?_⟩⟩
    simpa [isEmpty] using closed
  · refine ⟨[slash], by simp [closed], .inl ⟨rfl, fun empty => closed ?_⟩⟩
    simp [isEmpty, empty]

/-- Joining adds the segments of what has no slash. -/
theorem segments_join (p : Path) : (p.join q).segments = p.segments ++ q.segments := by
  obtain ⟨between, bytes, way⟩ := join_bytes noSlash p
  have same : p.join q = ⟨p.bytes ++ between ++ q.bytes⟩ := by rw [← bytes]
  rw [same]
  obtain ⟨rfl, _⟩ | ⟨rfl, empty | ends⟩ := way
  · rw [List.append_assoc]
    exact segments_append p.bytes q.bytes
  · have noSegments : p.segments = [] := by
      rw [segments, empty]
      rfl
    rw [empty, noSegments]
    rfl
  · obtain ⟨front, written⟩ := List.getLast?_eq_some_iff.mp (beq_iff_eq.mp ends)
    have before : p.segments = segments ⟨front⟩ := by
      rw [segments, written]
      exact segments_append_slash front
    rw [before, written, List.append_nil, List.append_assoc]
    exact segments_append front q.bytes

theorem isAbsolute_join (p : Path) : (p.join q).isAbsolute = p.isAbsolute := by
  obtain ⟨between, bytes, way⟩ := join_bytes noSlash p
  have relative := isAbsolute_of_not_mem noSlash
  cases written : p.bytes with
  | nil =>
    have empty : between = [] := by
      obtain ⟨_, nonempty⟩ | ⟨empty, _⟩ := way
      · exact absurd written nonempty
      · exact empty
    have first : p.isAbsolute = false := by rw [isAbsolute, written]; rfl
    rw [first, isAbsolute, bytes, written, empty]
    exact relative
  | cons b rest => simp [isAbsolute, bytes, written]

theorem endsInSlash_join (p : Path) (nonempty : q.bytes ≠ []) : (p.join q).endsInSlash = false := by
  obtain ⟨between, bytes, _⟩ := join_bytes noSlash p
  obtain ⟨front, b, written⟩ := (List.eq_nil_or_concat q.bytes).resolve_left nonempty
  have other : b ≠ slash := fun same => noSlash (by simp [written, same])
  simpa [endsInSlash, bytes, written] using other

end Join

theorem length_lt_join {name : Name} (isName : IsName name) (p : Path) :
    p.bytes.length < (p.join ⟨name⟩).bytes.length := by
  obtain ⟨between, bytes, _⟩ := join_bytes (q := ⟨name⟩) isName.not_mem p
  have nonempty : name ≠ [] := by
    rintro rfl
    cases isName
  have positive := List.length_pos_iff.mpr nonempty
  rw [bytes]
  simp only [List.length_append]
  omega

theorem segments_join_nil (p : Path) : (p.join ⟨[]⟩).segments = p.segments := by
  rw [segments_join List.not_mem_nil]
  exact List.append_nil _

theorem isAbsolute_join_nil (p : Path) : (p.join ⟨[]⟩).isAbsolute = p.isAbsolute :=
  isAbsolute_join List.not_mem_nil p

/-- Joining nothing puts a slash at the end. -/
theorem endsInSlash_join_nil {p : Path} (nonempty : p.bytes ≠ []) :
    (p.join ⟨[]⟩).endsInSlash = true := by
  obtain ⟨between, bytes, way⟩ := join_bytes List.not_mem_nil p
  obtain ⟨rfl, _⟩ | ⟨rfl, empty | ends⟩ := way
  · simp [endsInSlash, bytes]
  · exact absurd empty nonempty
  · simpa [endsInSlash, bytes] using ends

/-! ## The path above -/

theorem segments_trimEnd (reversed : Bytes) :
    ∃ dots : List Segment, (∀ segment ∈ dots, segment = .here) ∧
      segments ⟨(trimEnd reversed).reverse⟩ ++ dots = segments ⟨reversed.reverse⟩ := by
  fun_induction trimEnd reversed with
  | case1 c rest ih => rwa [List.reverse_cons, segments_append_slash]
  | case2 b c rest _ dotSlash ih =>
    simp only [Bool.and_eq_true, decide_eq_true_eq] at dotSlash
    obtain ⟨rfl, rfl⟩ := dotSlash
    obtain ⟨dots, here, same⟩ := ih
    have longer : segments ⟨(dot :: slash :: rest).reverse⟩ =
        segments ⟨(slash :: rest).reverse⟩ ++ [.here] := by
      rw [List.reverse_cons, List.reverse_cons, segments_append_slash, List.append_assoc]
      exact segments_append rest.reverse [dot]
    refine ⟨dots ++ [.here], List.forall_mem_append.mpr ⟨here, by simp⟩, ?_⟩
    rw [longer, ← same, List.append_assoc]
  | case3 | case4 => exact ⟨[], by simp, List.append_nil _⟩

theorem trimEnd_suffix (reversed : Bytes) : trimEnd reversed <:+ reversed := by
  fun_induction trimEnd reversed with
  | case1 c rest ih => exact ih.trans (List.suffix_cons _ _)
  | case2 b c rest _ _ ih => exact ih.trans (List.suffix_cons _ _)
  | case3 | case4 => exact List.suffix_rfl

theorem trimEnd_of_slash {reversed rest : Bytes} (trimmed : trimEnd reversed = slash :: rest) :
    rest = [] := by
  fun_induction trimEnd reversed with
  | case1 _ _ ih => exact ih trimmed
  | case2 _ _ _ _ _ ih => exact ih trimmed
  | case3 b c more other => exact absurd (List.cons.inj trimmed).1 other
  | case4 short shape =>
    match short, shape with
    | [], _ => cases trimmed
    | [_], _ => exact (List.cons.inj trimmed).2.symm
    | b :: c :: more, shape => exact absurd rfl (shape b c more)

theorem getLast?_trimEnd (reversed : Bytes) : (trimEnd reversed).getLast? = reversed.getLast? := by
  fun_induction trimEnd reversed with
  | case1 c rest ih => rw [ih, List.getLast?_cons_cons]
  | case2 b c rest _ _ ih => rw [ih, List.getLast?_cons_cons]
  | case3 => rfl
  | case4 => rfl

theorem segments_of_not_mem {bytes : Bytes} (noSlash : slash ∉ bytes) (nonempty : bytes ≠ []) :
    ∃ segment, segments ⟨bytes⟩ = [segment] := by
  rw [segments, splitSlash_of_not_mem noSlash]
  by_cases here : bytes = [dot]
  · exact ⟨.here, by simp [segmentOf?, here]⟩
  · by_cases up : bytes = [dot, dot]
    · exact ⟨.up, by simp [segmentOf?, up]⟩
    · exact ⟨.name bytes, by simp [segmentOf?, nonempty, here, up]⟩

/-- The segment of the last part comes after those of the others. -/
theorem segments_takeWhile (reversed : Bytes) :
    segments ⟨reversed.reverse⟩ = segments ⟨(reversed.dropWhile (· != slash)).reverse⟩ ++
      segments ⟨(reversed.takeWhile (· != slash)).reverse⟩ := by
  have whole := List.takeWhile_append_dropWhile (p := (· != slash)) (l := reversed)
  generalize reversed.takeWhile (· != slash) = part at whole ⊢
  cases dropped : reversed.dropWhile (· != slash) with
  | nil =>
    rw [dropped, List.append_nil] at whole
    rw [← whole]
    rfl
  | cons c more =>
    have isSlash : c = slash := by
      have stops := List.head?_dropWhile_not (· != slash) reversed
      rw [dropped] at stops
      simpa using stops
    rw [dropped, isSlash] at whole
    rw [← whole, isSlash, List.reverse_cons, segments_append_slash, List.reverse_append,
      List.reverse_cons, List.append_assoc]
    exact segments_append more.reverse part.reverse

theorem slash_not_mem_takeWhile (reversed : Bytes) :
    slash ∉ (reversed.takeWhile (· != slash)).reverse := by
  intro mem
  rw [List.mem_reverse] at mem
  simpa using List.mem_takeWhile_imp mem

/-- Dropping the last part drops one segment. -/
theorem segments_dropWhile_concat {b : UInt8} (isPart : b ≠ slash) (rest : Bytes) :
    ∃ segment, segments ⟨(b :: rest).reverse⟩ =
      segments ⟨((b :: rest).dropWhile (· != slash)).reverse⟩ ++ [segment] := by
  have nonempty : ((b :: rest).takeWhile (· != slash)).reverse ≠ [] := by
    rw [List.takeWhile_cons_of_pos (by simpa using isPart)]
    simp
  obtain ⟨segment, last⟩ := segments_of_not_mem (slash_not_mem_takeWhile _) nonempty
  exact ⟨segment, by rw [segments_takeWhile, last]⟩

theorem segments_dropWhile (reversed : Bytes) :
    segments ⟨(reversed.dropWhile (· != slash)).reverse⟩ <+: segments ⟨reversed.reverse⟩ := by
  cases reversed with
  | nil => exact List.prefix_rfl
  | cons b rest =>
    by_cases isSlash : b = slash
    · rw [List.dropWhile_cons_of_neg (by simpa using isSlash)]
    · obtain ⟨segment, whole⟩ := segments_dropWhile_concat isSlash rest
      rw [whole]
      exact List.prefix_append _ _

theorem isAbsolute_reverse (reversed : Bytes) :
    isAbsolute ⟨reversed.reverse⟩ = (reversed.getLast? == some slash) := by
  rw [isAbsolute, List.head?_reverse]

theorem getLast?_dropWhile (reversed : Bytes) :
    ((reversed.dropWhile (· != slash)).getLast? == some slash) =
      (reversed.getLast? == some slash) := by
  cases dropped : reversed.dropWhile (· != slash) with
  | nil =>
    have noSlash : slash ∉ reversed := fun mem => by
      simpa using List.dropWhile_eq_nil_iff.mp dropped slash mem
    have other : reversed.getLast? ≠ some slash := fun last => noSlash (List.mem_of_getLast? last)
    rw [beq_false_of_ne other]
    rfl
  | cons b rest =>
    have whole := List.takeWhile_append_dropWhile (p := (· != slash)) (l := reversed)
    rw [dropped] at whole
    rw [← whole, List.getLast?_append_cons]

theorem segments_part_of_trimEnd (reversed : Bytes) :
    segments ⟨(trimEnd reversed).reverse⟩ <+: segments ⟨reversed.reverse⟩ := by
  obtain ⟨dots, _, same⟩ := segments_trimEnd reversed
  exact ⟨dots, same⟩

/-- The path above is written without the last part, which is not a slash. -/
theorem parent?_eq_some {p parent : Path} (found : p.parent? = some parent) :
    parent = ⟨(trimEnd ((trimEnd p.bytes.reverse).dropWhile (· != slash))).reverse⟩ ∧
      ∃ b rest, trimEnd p.bytes.reverse = b :: rest ∧ b ≠ slash := by
  unfold parent? at found
  cases trimmed : trimEnd p.bytes.reverse with
  | nil =>
    rw [trimmed] at found
    cases found
  | cons b rest =>
    rw [trimmed] at found
    simp only at found
    split at found
    · cases found
    · next notRoot =>
      cases found
      refine ⟨rfl, b, rest, rfl, ?_⟩
      rintro rfl
      rw [trimEnd_of_slash trimmed] at notRoot
      exact notRoot rfl

/-- The path above is a first part of the path. -/
theorem parent?_bytes {p parent : Path} (found : p.parent? = some parent) :
    parent.bytes <+: p.bytes := by
  obtain ⟨rfl, _⟩ := parent?_eq_some found
  have part : trimEnd ((trimEnd p.bytes.reverse).dropWhile (· != slash)) <:+ p.bytes.reverse :=
    ((trimEnd_suffix _).trans (List.dropWhile_suffix _)).trans (trimEnd_suffix _)
  rwa [← List.reverse_prefix, List.reverse_reverse] at part

theorem length_parent?_lt {p parent : Path} (found : p.parent? = some parent) :
    parent.bytes.length < p.bytes.length := by
  obtain ⟨rfl, b, rest, trimmed, isPart⟩ := parent?_eq_some found
  have part := (trimEnd_suffix p.bytes.reverse).length_le
  have dropped := (List.dropWhile_suffix (l := rest) (· != slash)).length_le
  have higher := (trimEnd_suffix (rest.dropWhile (· != slash))).length_le
  rw [trimmed, List.dropWhile_cons_of_pos (by simpa using isPart)]
  rw [trimmed, List.length_reverse, List.length_cons] at part
  rw [List.length_reverse]
  omega

/-- The path above has a first part of the segments and begins at the same place. -/
theorem segments_parent? {p parent : Path} (found : p.parent? = some parent) :
    parent.segments <+: p.segments ∧ parent.isAbsolute = p.isAbsolute := by
  obtain ⟨rfl, _⟩ := parent?_eq_some found
  constructor
  · have whole := segments_part_of_trimEnd p.bytes.reverse
    rw [List.reverse_reverse] at whole
    exact ((segments_part_of_trimEnd _).trans (segments_dropWhile _)).trans whole
  · rw [isAbsolute_reverse, getLast?_trimEnd, getLast?_dropWhile, getLast?_trimEnd,
      ← isAbsolute_reverse, List.reverse_reverse]

/-- The path above one that ends in a name has the other segments, but for `.` at their end. -/
theorem segments_parent?_of_name {p parent : Path} {front : List Segment} {name : Name}
    (found : p.parent? = some parent) (ends : p.segments = front ++ [.name name]) :
    ∃ dots : List Segment, (∀ segment ∈ dots, segment = .here) ∧
      parent.segments ++ dots = front := by
  obtain ⟨rfl, b, rest, trimmed, isPart⟩ := parent?_eq_some found
  obtain ⟨segment, whole⟩ := segments_dropWhile_concat isPart rest
  obtain ⟨dots, here, same⟩ := segments_trimEnd p.bytes.reverse
  rw [trimmed, whole, List.reverse_reverse] at same
  obtain rfl | ⟨others, last, rfl⟩ := List.eq_nil_or_concat dots
  · rw [List.append_nil] at same
    rw [trimmed, ← (List.append_inj' (same.trans ends) rfl).1]
    exact segments_trimEnd _
  · -- The trimmed end would be a `.`, but the path ends in a name.
    have isHere := here last (by simp)
    have lasts := congrArg List.getLast? (same.trans ends)
    rw [List.concat_eq_append, ← List.append_assoc, List.getLast?_concat, List.getLast?_concat,
      isHere] at lasts
    cases lasts

theorem eq_dot_of_segments {bytes : Bytes} (noSlash : slash ∉ bytes)
    (isHere : segments ⟨bytes⟩ = [.here]) : bytes = [dot] := by
  have spelled : segmentOf? bytes = some .here := by
    rw [segments, splitSlash_of_not_mem noSlash] at isHere
    cases part : segmentOf? bytes with
    | none => simp [part] at isHere
    | some segment => simpa [part] using isHere
  unfold segmentOf? at spelled
  split_ifs at spelled with _ isDot
  · exact isDot
  · cases spelled
  · cases spelled

theorem trimEnd_eq_cons {reversed rest : Bytes} {b c : UInt8}
    (trimmed : trimEnd reversed = b :: c :: rest) : ¬ (b = dot ∧ c = slash) := by
  fun_induction trimEnd reversed with
  | case1 _ _ ih => exact ih trimmed
  | case2 _ _ _ _ _ ih => exact ih trimmed
  | case3 _ _ _ _ kept =>
    cases trimmed
    simpa using kept
  | case4 short shape => exact absurd trimmed (shape b c rest)

/-- A trimmed path that ends in `.` is nothing else. -/
theorem trimEnd_eq_dot {reversed : Bytes}
    (ends : (segments ⟨(trimEnd reversed).reverse⟩).getLast? = some .here) :
    trimEnd reversed = [dot] := by
  cases trimmed : trimEnd reversed with
  | nil =>
    rw [trimmed] at ends
    cases ends
  | cons b rest =>
    rw [trimmed] at ends
    by_cases isPart : b = slash
    · subst isPart
      rw [trimEnd_of_slash trimmed] at ends
      cases ends
    · have part : (b :: rest).takeWhile (· != slash) = b :: rest.takeWhile (· != slash) :=
        List.takeWhile_cons_of_pos (by simpa using isPart)
      obtain ⟨segment, last⟩ := segments_of_not_mem (slash_not_mem_takeWhile (b :: rest))
        (by simp [part])
      rw [segments_takeWhile, last, List.getLast?_concat] at ends
      cases ends
      have isDot := eq_dot_of_segments (slash_not_mem_takeWhile _) last
      rw [part, List.reverse_eq_iff] at isDot
      obtain ⟨rfl, alone⟩ := List.cons.inj isDot
      -- What comes before the dot is a slash, and so would not have been kept.
      cases rest with
      | nil => rfl
      | cons c more =>
        have isSlash : c = slash := by
          by_contra other
          rw [List.takeWhile_cons_of_pos (by simpa using other)] at alone
          cases alone
        exact absurd ⟨rfl, isSlash⟩ (trimEnd_eq_cons trimmed)

/-- A path above another one ends in `.` only when it is `.`. -/
theorem segments_parent?_of_here {p parent : Path} (found : p.parent? = some parent)
    (ends : parent.segments.getLast? = some .here) : parent.segments = [.here] := by
  obtain ⟨rfl, _⟩ := parent?_eq_some found
  rw [trimEnd_eq_dot ends]
  rfl

/-- Only a path of no name and no `..` has no path above it. -/
theorem segments_of_parent?_eq_none {p : Path} (top : p.parent? = none) :
    ∀ segment ∈ p.segments, segment = .here := by
  obtain ⟨dots, here, same⟩ := segments_trimEnd p.bytes.reverse
  have bare : segments ⟨(trimEnd p.bytes.reverse).reverse⟩ = [] := by
    unfold parent? at top
    split at top
    · next empty =>
      rw [empty]
      rfl
    · split at top
      · next root =>
        rw [root]
        rfl
      · cases top
  rw [bare, List.nil_append, List.reverse_reverse] at same
  rwa [← same]

theorem parent?_ne_none_of_mem {p : Path} {name : Name} (mem : .name name ∈ p.segments) :
    p.parent? ≠ none := by
  intro top
  cases segments_of_parent?_eq_none top _ mem

/-! ## Paths below -/

/-- The path of what is below a path under the given names. -/
def below (p : Path) (names : List Name) : Path := names.foldl (fun q name => q.join ⟨name⟩) p

theorem below_append (p : Path) (names more : List Name) :
    p.below (names ++ more) = (p.below names).below more := List.foldl_append

theorem below_concat (p : Path) (names : List Name) (name : Name) :
    p.below (names ++ [name]) = (p.below names).join ⟨name⟩ := below_append p names [name]

section Below

variable {names : List Name} (areNames : ∀ name ∈ names, IsName name)

include areNames

theorem segments_below (p : Path) : (p.below names).segments = p.segments ++ names.map .name := by
  induction names generalizing p with
  | nil => exact (List.append_nil _).symm
  | cons name names ih =>
    obtain ⟨isName, later⟩ := List.forall_mem_cons.mp areNames
    have step := ih later (p.join ⟨name⟩)
    rw [segments_join isName.not_mem, isName, List.append_assoc] at step
    exact step

theorem isAbsolute_below (p : Path) : (p.below names).isAbsolute = p.isAbsolute := by
  induction names generalizing p with
  | nil => rfl
  | cons name names ih =>
    obtain ⟨isName, later⟩ := List.forall_mem_cons.mp areNames
    exact (ih later (p.join ⟨name⟩)).trans (isAbsolute_join isName.not_mem p)

theorem prefix_below (p : Path) : p.bytes <+: (p.below names).bytes := by
  induction names generalizing p with
  | nil => exact List.prefix_rfl
  | cons name names ih =>
    obtain ⟨isName, later⟩ := List.forall_mem_cons.mp areNames
    obtain ⟨between, bytes, _⟩ := join_bytes (q := ⟨name⟩) isName.not_mem p
    refine List.IsPrefix.trans ?_ (ih later (p.join ⟨name⟩))
    rw [bytes, List.append_assoc]
    exact List.prefix_append _ _

/-- The bytes of a path below another one are those of the path and of the names, and slashes. -/
theorem not_mem_below_iff {b : UInt8} (other : b ≠ slash) (p : Path) :
    b ∉ (p.below names).bytes ↔ b ∉ p.bytes ∧ ∀ name ∈ names, b ∉ name := by
  induction names generalizing p with
  | nil => simp [below]
  | cons name names ih =>
    obtain ⟨isName, later⟩ := List.forall_mem_cons.mp areNames
    obtain ⟨between, bytes, way⟩ := join_bytes (q := ⟨name⟩) isName.not_mem p
    have apart : b ∉ between := by
      obtain ⟨rfl, _⟩ | ⟨rfl, _⟩ := way
      · simpa using other
      · simp
    refine (ih later (p.join ⟨name⟩)).trans ?_
    rw [bytes, List.forall_mem_cons]
    simp only [List.mem_append, not_or, apart, not_false_eq_true, and_true, and_assoc]

end Below

end KernelSpec.Path
