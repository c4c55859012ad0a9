import CopySpace.Link.Archive

/-!
# `copy_link.c`: the members of an archive

`archive_members` walks over an archive with a cursor and stores where the contents of the members
stand.  Here it is modelled with the cursor; `archiveMembers` is the same walk, seen as texts.  What
it accepts is read to the last byte and its members stand in the archive one behind the other, and
what the two `ar` layouts write is read back.
-/

namespace CopySpace.Link

/-! ## The walk -/

/-- A stored member: where its contents begin, and how many bytes they are. -/
structure Span where
  start : Nat
  size : Nat
deriving DecidableEq, Repr

/-- The bytes that a span of an archive stands for. -/
def Span.text (archive : Text) (s : Span) : Text := (archive.drop s.start).take s.size

/-- Where the next header is when the contents end at `next`. -/
def archivePadding (archive : Text) (bytes next : Nat) : Option Nat :=
  if bytes % 2 = 1 then if archive[next]? = some '\n' then some (next + 1) else none
  else some next

/-- The loop body up to the member found: whether it is metadata, its contents, and the cursor
behind it. -/
def memberAt (archive : Text) (i : Nat) : Option (Bool × Span × Nat) :=
  let header := (archive.drop i).take 60
  let name := ((header.take 16).reverse.dropWhile (· = ' ')).reverse
  if archive.length - i < 60 ∨ header.drop 58 ≠ "`\n".toList then none
  else match archiveDecimal ((header.drop 48).take 10) with
    | none => none
    | some bytes =>
        if bytes > archive.length - (i + 60) ∨ name = [] then none
        else (archiveFilename name bytes (archive.drop (i + 60))).bind fun (filename, metadata) ↦
          (archivePadding archive bytes (i + 60 + bytes)).map fun next ↦
            (metadata, ⟨i + 60 + filename, bytes - filename⟩, next)

/-- The variables of the loop; `members` and `count` are one list. -/
structure Walk where
  cursor : Nat
  members : List Span
deriving DecidableEq, Repr

/-- The loop body; `none` is the return of -1. -/
def Walk.step (capacity : Nat) (archive : Text) (w : Walk) : Option Walk :=
  match memberAt archive w.cursor with
  | none => none
  | some (metadata, span, next) =>
      if metadata then some ⟨next, w.members⟩
      else if w.members.length = capacity then none
      else some ⟨next, w.members ++ [span]⟩

/-- The loop, for a number of rounds: `none` when they are not enough. -/
def Walk.loop (capacity : Nat) (archive : Text) : Nat → Walk → Option (Option Walk)
  | fuel, w =>
      if w.cursor < archive.length then
        match fuel with
        | 0 => none
        | fuel + 1 => match w.step capacity archive with
          | none => some none
          | some w => Walk.loop capacity archive fuel w
      else some (some w)

/-- `archive_members`: what is stored and the cursor at the end, or the rejection. -/
def walkMembers (capacity : Nat) (archive : Text) (fuel : Nat) : Option (Option Walk) :=
  if archive.length < 8 ∨ archive.take 8 ≠ "!<arch>\n".toList then some none
  else Walk.loop capacity archive fuel ⟨8, []⟩

/-! ## What is accepted -/

section Walk

variable {capacity : Nat} {archive : Text}

theorem archivePadding_bounds {bytes next after : Nat} (hnext : next ≤ archive.length)
    (h : archivePadding archive bytes next = some after) :
    next ≤ after ∧ after ≤ archive.length := by
  unfold archivePadding at h
  split at h
  · split at h
    case isTrue hc =>
      cases h
      exact ⟨Nat.le_succ next, (List.getElem?_eq_some_iff.mp hc).1⟩
    · nomatch h
  · cases h
    exact ⟨Nat.le_refl _, hnext⟩

theorem archiveFilename_le {name body : Text} {bytes filename : Nat} {metadata : Bool}
    (h : archiveFilename name bytes body = some (filename, metadata)) : filename ≤ bytes := by
  unfold archiveFilename at h
  dsimp only at h
  split at h
  · split at h
    · nomatch h
    · split at h
      · nomatch h
      case isFalse hle =>
        cases h
        exact Nat.not_lt.mp hle
  · cases h
    exact Nat.zero_le _

/-- The contents found stand behind a header at the cursor, and inside the archive. -/
theorem memberAt_bounds {i next : Nat} {metadata : Bool} {span : Span}
    (h : memberAt archive i = some (metadata, span, next)) :
    i + 60 ≤ span.start ∧ span.start + span.size ≤ next ∧ next ≤ archive.length := by
  unfold memberAt at h
  dsimp only at h
  split at h
  · nomatch h
  case isFalse hheader =>
    split at h
    · nomatch h
    split at h
    · nomatch h
    case isFalse hbytes =>
      obtain ⟨⟨filename, metadata'⟩, hname, h⟩ := Option.bind_eq_some_iff.mp h
      obtain ⟨next', hnext, h⟩ := Option.map_eq_some_iff.mp h
      cases h
      rw [not_or] at hheader hbytes
      have hle := archiveFilename_le hname
      have := archivePadding_bounds (by omega) hnext
      refine ⟨Nat.le_add_right _ _, ?_, this.2⟩
      dsimp only
      omega

/-- The invariant of the loop: the cursor is inside the archive, and the members stored stand before
it, one behind the other, behind the magic. -/
structure Walk.Ordered (archive : Text) (w : Walk) : Prop where
  cursor_le : w.cursor ≤ archive.length
  start : ∀ s ∈ w.members, 8 ≤ s.start
  stop : ∀ s ∈ w.members, s.start + s.size ≤ w.cursor
  pairwise : w.members.Pairwise fun s t ↦ s.start + s.size < t.start

theorem Walk.step_eq_some {w w' : Walk} (h : w.step capacity archive = some w') :
    ∃ metadata span next, memberAt archive w.cursor = some (metadata, span, next) ∧
      w' = ⟨next, if metadata then w.members else w.members ++ [span]⟩ := by
  unfold Walk.step at h
  split at h
  · nomatch h
  case h_2 metadata span next hm =>
    refine ⟨metadata, span, next, hm, ?_⟩
    split at h
    case isTrue hmeta =>
      rw [if_pos hmeta]
      exact (Option.some.inj h).symm
    case isFalse hmeta =>
      rw [if_neg hmeta]
      split at h
      · nomatch h
      · exact (Option.some.inj h).symm

theorem Walk.step_cursor {w w' : Walk} (h : w.step capacity archive = some w') :
    w.cursor + 60 ≤ w'.cursor := by
  obtain ⟨metadata, span, next, hm, rfl⟩ := Walk.step_eq_some h
  obtain ⟨hstart, hstop, -⟩ := memberAt_bounds hm
  dsimp only
  omega

theorem Walk.Ordered.step {w w' : Walk} (h : w.Ordered archive) (h8 : 8 ≤ w.cursor)
    (hstep : w.step capacity archive = some w') : w'.Ordered archive := by
  obtain ⟨metadata, span, next, hm, rfl⟩ := Walk.step_eq_some hstep
  obtain ⟨hstart, hstop, hnext⟩ := memberAt_bounds hm
  have hold : ∀ s ∈ w.members, s.start + s.size < span.start := fun s hs ↦ by
    have := h.stop s hs
    omega
  have hmem : ∀ s, s ∈ (if metadata then w.members else w.members ++ [span]) →
      s ∈ w.members ∨ s = span := fun s hs ↦ by
    cases metadata
    · exact (List.mem_append.mp hs).imp_right List.mem_singleton.mp
    · exact .inl hs
  refine ⟨hnext, fun s hs ↦ ?_, fun s hs ↦ ?_, ?_⟩
  · rcases hmem s hs with hs | rfl
    · exact h.start s hs
    · omega
  · rcases hmem s hs with hs | rfl
    · exact Nat.le_trans (Nat.le_of_lt (hold s hs)) (by dsimp only; omega)
    · exact hstop
  · cases metadata
    · refine List.pairwise_append.mpr ⟨h.pairwise, List.pairwise_singleton _ _, ?_⟩
      intro s hs t ht
      rw [List.mem_singleton.mp ht]
      exact hold s hs
    · exact h.pairwise

/-- The loop ends, after less rounds than bytes, and what it ends with is ordered and read to the
end. -/
theorem Walk.loop_ordered : ∀ (fuel : Nat) (w : Walk), w.Ordered archive → 8 ≤ w.cursor →
    archive.length ≤ w.cursor + fuel →
    ∃ r, w.loop capacity archive fuel = some r ∧
      ∀ w', r = some w' → w'.Ordered archive ∧ w'.cursor = archive.length
  | fuel, w, h, h8, hfuel => by
    unfold Walk.loop
    by_cases hlt : w.cursor < archive.length
    · rw [if_pos hlt]
      obtain ⟨fuel, rfl⟩ := Nat.exists_eq_add_of_le' (show 1 ≤ fuel by omega)
      dsimp only
      split
      · exact ⟨none, rfl, fun _ h ↦ nomatch h⟩
      case h_2 w' hstep =>
        have hcursor := Walk.step_cursor hstep
        exact Walk.loop_ordered fuel w' (h.step h8 hstep) (by omega) (by omega)
    · rw [if_neg hlt]
      refine ⟨some w, rfl, ?_⟩
      rintro w' hw'
      cases hw'
      exact ⟨h, Nat.le_antisymm h.cursor_le (Nat.not_lt.mp hlt)⟩

theorem walkMembers_ordered (capacity : Nat) (archive : Text) :
    ∃ r, walkMembers capacity archive archive.length = some r ∧
      ∀ w, r = some w → w.Ordered archive ∧ w.cursor = archive.length := by
  unfold walkMembers
  split
  · exact ⟨none, rfl, fun _ h ↦ nomatch h⟩
  case isFalse h =>
    rw [not_or] at h
    refine Walk.loop_ordered _ _ ⟨Nat.not_lt.mp h.1, ?_, ?_, List.Pairwise.nil⟩
      (Nat.le_refl _) (Nat.le_add_left _ _)
    · exact fun _ h ↦ nomatch h
    · exact fun _ h ↦ nomatch h

end Walk

/-! ## The walk as texts -/

section Texts

variable {capacity : Nat} {archive : Text}

theorem archiveAfter_drop (archive : Text) (bytes i : Nat) :
    archiveAfter bytes (archive.drop i) =
      (archivePadding archive bytes (i + bytes)).map (archive.drop ·) := by
  unfold archiveAfter archivePadding
  rw [List.drop_drop]
  generalize i + bytes = k
  by_cases hodd : bytes % 2 = 1
  · rw [if_pos hodd, if_pos hodd]
    cases hc : archive[k]? with
    | none =>
        rw [List.drop_eq_nil_of_le (List.getElem?_eq_none_iff.mp hc)]
        rfl
    | some c =>
        obtain ⟨hlt, rfl⟩ := List.getElem?_eq_some_iff.mp hc
        rw [List.drop_eq_getElem_cons hlt]
        by_cases hn : archive[k] = '\n'
        · simp only [hn, ne_eq, not_true_eq_false, if_false, if_true, Option.map_some]
        · simp only [hn, ne_eq, not_false_eq_true, if_true, Option.some.injEq, if_false,
            Option.map_none]
  · rw [if_neg hodd, if_neg hodd]
    rfl

/-- A member of the rest of an archive is the member at the cursor. -/
theorem archiveMember_drop (archive : Text) (i : Nat) :
    archiveMember (archive.drop i) = (memberAt archive i).map fun (metadata, span, next) ↦
      (metadata, span.text archive, archive.drop next) := by
  unfold archiveMember memberAt
  dsimp only
  rw [List.length_drop, List.drop_drop, List.length_drop]
  by_cases hheader : archive.length - i < 60 ∨
      ((archive.drop i).take 60).drop 58 ≠ "`\n".toList
  · rw [if_pos hheader, if_pos hheader]
    rfl
  rw [if_neg hheader, if_neg hheader]
  cases archiveDecimal ((((archive.drop i).take 60).drop 48).take 10) with
  | none => rfl
  | some bytes =>
      dsimp only
      generalize ((((archive.drop i).take 60).take 16).reverse.dropWhile
        (fun c ↦ decide (c = ' '))).reverse = name
      by_cases hfits : bytes > archive.length - (i + 60) ∨ name = []
      · rw [if_pos hfits, if_pos hfits]
        rfl
      rw [if_neg hfits, if_neg hfits]
      cases archiveFilename name bytes (archive.drop (i + 60)) with
      | none => rfl
      | some found =>
          rw [Option.bind_some, Option.bind_some, archiveAfter_drop, Option.map_map,
            Option.map_map]
          refine congrArg (Option.map · _) (funext fun next ↦ ?_)
          simp only [Function.comp_apply, Span.text, List.drop_take, List.drop_drop]

/-- The texts that a walk has stored. -/
def Walk.texts (archive : Text) (w : Walk) : List Text := w.members.map (Span.text archive)

theorem Walk.loop_texts : ∀ {fuel : Nat} {w : Walk} {r : Option Walk},
    w.loop capacity archive fuel = some r → w.members.length ≤ capacity →
    r.map (Walk.texts archive) =
      (archiveMembersFrom (capacity - w.members.length) (archive.drop w.cursor).length
        (archive.drop w.cursor)).map (w.texts archive ++ ·)
  | fuel, w, r, h, hcount => by
    unfold Walk.loop at h
    by_cases hlt : w.cursor < archive.length
    · rw [if_pos hlt] at h
      cases fuel with
      | zero => nomatch h
      | succ fuel =>
          dsimp only at h
          have hrest : archive.drop w.cursor =
              archive[w.cursor] :: archive.drop (w.cursor + 1) := List.drop_eq_getElem_cons hlt
          have hmember := archiveMember_drop archive w.cursor
          rw [hrest] at hmember ⊢
          rw [List.length_cons, archiveMembersFrom, hmember]
          cases hm : memberAt archive w.cursor with
          | none =>
              rw [Walk.step, hm] at h
              cases h
              rfl
          | some found =>
              obtain ⟨metadata, span, next⟩ := found
              have hnext : (archive.drop next).length ≤ (archive.drop (w.cursor + 1)).length := by
                obtain ⟨hstart, hstop, -⟩ := memberAt_bounds hm
                rw [List.length_drop, List.length_drop]
                omega
              rw [Walk.step, hm] at h
              simp only [Option.map_some, archiveMembersFrom_eq hnext]
              cases metadata with
              | true => exact Walk.loop_texts h hcount
              | false =>
                  by_cases hfull : w.members.length = capacity
                  · simp only [Bool.false_eq_true, if_false, hfull, if_true] at h
                    cases h
                    rw [hfull, Nat.sub_self]
                    rfl
                  · simp only [Bool.false_eq_true, if_false, hfull] at h
                    have hroom : ¬ capacity - w.members.length = 0 := by omega
                    have hrec := Walk.loop_texts h (by
                      rw [List.length_append, List.length_singleton]
                      omega)
                    rw [hrec, if_neg Bool.false_ne_true, if_neg hroom, Option.map_map,
                      List.length_append, List.length_singleton, Nat.sub_add_eq]
                    refine congrArg (Option.map · _) (funext fun texts ↦ ?_)
                    simp only [Walk.texts, List.map_append, List.map_cons, List.map_nil,
                      List.append_assoc, Function.comp_apply, List.singleton_append]
    · rw [if_neg hlt] at h
      cases h
      rw [List.drop_eq_nil_of_le (Nat.not_lt.mp hlt)]
      exact (congrArg some (List.append_nil _)).symm

/-- `archiveMembers` is the walk, seen as texts. -/
theorem archiveMembers_eq_walk {r : Option Walk}
    (h : walkMembers capacity archive archive.length = some r) :
    archiveMembers capacity archive = r.map (Walk.texts archive) := by
  have hmagic : "!<arch>\n".toList.isPrefixOf archive = true ↔
      ¬ (archive.length < 8 ∨ archive.take 8 ≠ "!<arch>\n".toList) := by
    rw [List.isPrefixOf_iff_prefix, List.prefix_iff_eq_take, not_or, Nat.not_lt, not_ne_iff]
    refine ⟨fun he ↦ ⟨?_, he.symm⟩, fun he ↦ he.2.symm⟩
    have := congrArg List.length he
    rw [List.length_take, show "!<arch>\n".toList.length = 8 from rfl] at this
    omega
  unfold walkMembers at h
  unfold archiveMembers
  by_cases hm : archive.length < 8 ∨ archive.take 8 ≠ "!<arch>\n".toList
  · rw [if_pos hm] at h
    cases h
    rw [if_neg (mt hmagic.mp (not_not.mpr hm))]
    rfl
  · rw [if_neg hm] at h
    have hloop := Walk.loop_texts h (Nat.zero_le _)
    have hle : (archive.drop 8).length ≤ archive.length := by
      rw [List.length_drop]
      exact Nat.sub_le _ _
    rw [if_pos (hmagic.mpr hm), archiveMembersFrom_eq hle, hloop]
    exact Option.map_id'.symm

end Texts

/-! ## The layouts

An archive in one of the two `ar` layouts: the name of a member is in the field of its header, or,
BSD's way, in front of its contents.
-/

/-- Where the name of a member is stored. -/
inductive MemberName
  | field (name : Text)
  | embedded (name : Text)
deriving DecidableEq

/-- What is in the field of the header. -/
def MemberName.header : MemberName → Text
  | .field name => name
  | .embedded name => "#1/".toList ++ Nat.toDigits 10 name.length

/-- What is in front of the contents. -/
def MemberName.front : MemberName → Text
  | .field _ => []
  | .embedded name => name

/-- A name in the field is a text of at most sixteen bytes that does not end with a space, as that
is the padding, and is not BSD's reference to a name in front of the contents. -/
def MemberName.Fits : MemberName → Prop
  | .field name => name ≠ [] ∧ name.length ≤ 16 ∧ name.getLast? ≠ some ' ' ∧
      (3 < name.length → ¬ "#1/".toList <+: name)
  | .embedded _ => True

/-- The names of GNU's symbol index, its table of names and its wide symbol index, and BSD's
symbol index. -/
def MemberName.index : MemberName → Bool
  | .field name => name = "/".toList || name = "//".toList || name = "/SYM64/".toList ||
      "__.SYMDEF".toList.isPrefixOf name
  | .embedded name => "__.SYMDEF".toList.isPrefixOf name

/-- A member as it is stored; `attributes` are its date, owner, group and mode. -/
structure StoredMember where
  name : MemberName
  attributes : Text
  contents : Text
  name_fits : name.Fits
  attributes_length : attributes.length = 32
  size_lt : name.front.length + contents.length < 10 ^ 10

/-- A field of a header. -/
def padded (width : Nat) (s : Text) : Text := s ++ List.replicate (width - s.length) ' '

def StoredMember.size (m : StoredMember) : Nat := m.name.front.length + m.contents.length

def StoredMember.header (m : StoredMember) : Text :=
  padded 16 m.name.header ++ m.attributes ++ padded 10 (Nat.toDigits 10 m.size) ++ "`\n".toList

def StoredMember.write (m : StoredMember) : Text :=
  m.header ++ m.name.front ++ m.contents ++ if m.size % 2 = 1 then ['\n'] else []

def writeArchive (members : List StoredMember) : Text :=
  "!<arch>\n".toList ++ members.flatMap StoredMember.write

/-- The members that are no index. -/
def regular (members : List StoredMember) : List StoredMember := members.filter (!·.name.index)

/-! ## Reading what is written -/

section Written

theorem length_padded {width : Nat} {s : Text} (h : s.length ≤ width) :
    (padded width s).length = width := by
  rw [padded, List.length_append, List.length_replicate, Nat.add_sub_cancel' h]

theorem isDigit_eq (c : Char) : isDigit c = c.isDigit := rfl

theorem le_ofDigitChars (s : Text) (n : Nat) : n ≤ Nat.ofDigitChars 10 s n := by
  induction s generalizing n with
  | nil => exact Nat.le_of_eq Nat.ofDigitChars_nil.symm
  | cons c s ih =>
      rw [Nat.ofDigitChars_cons]
      exact Nat.le_trans (by omega) (ih _)

theorem archiveDigits_append {s t : Text} {n : Nat} (hs : ∀ c ∈ s, isDigit c)
    (ht : ∀ c ∈ t, isDigit c = false) (hn : Nat.ofDigitChars 10 s n ≤ sizeMax) :
    archiveDigits n (s ++ t) = some (t, Nat.ofDigitChars 10 s n) := by
  induction s generalizing n with
  | nil =>
      rw [List.nil_append, Nat.ofDigitChars_nil]
      cases t with
      | nil => rfl
      | cons c t =>
          rw [archiveDigits, if_neg (by rw [ht c List.mem_cons_self]; exact Bool.false_ne_true)]
  | cons c s ih =>
      rw [Nat.ofDigitChars_cons, Nat.mul_comm] at hn ⊢
      have hle := Nat.le_trans (le_ofDigitChars s (n * 10 + (c.toNat - '0'.toNat))) hn
      have hsmall : ¬ n > (sizeMax - digit c) / 10 := by
        unfold digit
        omega
      rw [List.cons_append, archiveDigits, if_pos (hs c List.mem_cons_self), if_neg hsmall]
      exact ih (fun c hc ↦ hs c (List.mem_cons_of_mem _ hc)) hn

/-- A decimal number with spaces behind it. -/
theorem archiveDecimal_toDigits {n : Nat} (hn : n ≤ sizeMax) (k : Nat) :
    archiveDecimal (Nat.toDigits 10 n ++ List.replicate k ' ') = some n := by
  have hdigits := archiveDigits_append (s := Nat.toDigits 10 n) (t := List.replicate k ' ') (n := 0)
    (fun c hc ↦ Nat.isDigit_of_mem_toDigits (by decide) (by decide) hc)
    (fun c hc ↦ by rw [List.eq_of_mem_replicate hc]; rfl)
    (by rw [Nat.ofDigitChars_ten_toDigits]; exact hn)
  have hlength : (Nat.toDigits 10 n ++ List.replicate k ' ').length ≠ (List.replicate k ' ').length := by
    have : 0 < (Nat.toDigits 10 n).length := Nat.length_toDigits_pos
    rw [List.length_append]
    omega
  unfold archiveDecimal
  rw [hdigits, Nat.ofDigitChars_ten_toDigits]
  simp only [Option.bind_eq_bind, Option.bind_some, if_neg hlength.symm, List.all_replicate,
    decide_true]
  split <;> rfl

/-- The padding is taken off again. -/
theorem stripped_padded {width : Nat} {s : Text} (hs : s ≠ []) (hlast : s.getLast? ≠ some ' ') :
    ((padded width s).reverse.dropWhile (fun c ↦ decide (c = ' '))).reverse = s := by
  obtain ⟨init, c, rfl⟩ := List.eq_nil_or_concat s |>.resolve_left hs
  have hc : c ≠ ' ' := fun he ↦ hlast (by rw [he, List.concat_eq_append, List.getLast?_concat])
  rw [padded, List.reverse_append, List.reverse_replicate, List.concat_eq_append,
    List.dropWhile_append_of_pos, List.reverse_append]
  · rw [List.reverse_singleton, List.singleton_append, List.dropWhile_cons_of_neg]
    · rw [List.reverse_cons, List.reverse_reverse]
    · rwa [decide_eq_true_eq]
  · intro a ha
    rw [List.eq_of_mem_replicate ha]
    rfl

theorem length_toDigits_le {n k : Nat} (hk : 0 < k) (h : n < 10 ^ k) :
    (Nat.toDigits 10 n).length ≤ k := (Nat.length_toDigits_le_iff (by decide) hk).mpr h

theorem getLast?_toDigits (s : Text) (n : Nat) : (s ++ Nat.toDigits 10 n).getLast? ≠ some ' ' := by
  intro h
  rw [List.getLast?_append_of_ne_nil _ Nat.toDigits_ne_nil] at h
  exact absurd (Nat.isDigit_of_mem_toDigits (by decide) (by decide) (List.mem_of_getLast? h))
    (by decide)

theorem MemberName.header_fits {name : MemberName} (h : name.Fits)
    (hlt : name.front.length < 10 ^ 10) :
    name.header ≠ [] ∧ name.header.length ≤ 16 ∧ name.header.getLast? ≠ some ' ' := by
  cases name with
  | field name => exact ⟨h.1, h.2.1, h.2.2.1⟩
  | embedded name =>
      have hdigits := length_toDigits_le (by decide) hlt
      refine ⟨List.append_ne_nil_of_left_ne_nil (by decide) _, ?_, getLast?_toDigits _ _⟩
      rw [MemberName.header, List.length_append]
      exact Nat.add_le_add (show 3 ≤ 6 by decide) hdigits

/-- The name is recognised, and an index too. -/
theorem archiveFilename_header {name : MemberName} {contents after : Text} (h : name.Fits)
    (hlt : name.front.length + contents.length < 10 ^ 10) :
    archiveFilename name.header (name.front.length + contents.length)
      (name.front ++ contents ++ after) = some (name.front.length, name.index) := by
  cases name with
  | field name =>
      obtain ⟨-, -, -, hbsd⟩ := h
      have hno : ¬ (name.length > 3 ∧ "#1/".toList.isPrefixOf name = true) := fun hc ↦
        hbsd hc.1 (List.isPrefixOf_iff_prefix.mp hc.2)
      rw [archiveFilename, MemberName.header, if_neg hno]
      rfl
  | embedded name =>
      have hdigits : 0 < (Nat.toDigits 10 name.length).length := Nat.length_toDigits_pos
      have hbsd : (MemberName.embedded name).header.length > 3 ∧
          "#1/".toList.isPrefixOf (MemberName.embedded name).header = true := by
        refine ⟨?_, List.isPrefixOf_iff_prefix.mpr (List.prefix_append _ _)⟩
        rw [MemberName.header, List.length_append]
        exact Nat.lt_add_of_pos_right hdigits
      have hdecimal : archiveDecimal ((MemberName.embedded name).header.drop 3) =
          some name.length := by
        have := archiveDecimal_toDigits (n := name.length) (by
          have : name.length < 10 ^ 10 := Nat.lt_of_le_of_lt (Nat.le_add_right _ _) hlt
          unfold sizeMax
          omega) 0
        rwa [List.replicate_zero, List.append_nil] at this
      have hgnu : (decide ((MemberName.embedded name).header = "/".toList) ||
          decide ((MemberName.embedded name).header = "//".toList) ||
          decide ((MemberName.embedded name).header = "/SYM64/".toList)) = false := rfl
      have hindex : (decide (name.length ≥ 9) &&
          "__.SYMDEF".toList.isPrefixOf (name ++ contents ++ after)) =
            "__.SYMDEF".toList.isPrefixOf name := by
        rw [Bool.eq_iff_iff, Bool.and_eq_true, decide_eq_true_eq, List.isPrefixOf_iff_prefix,
          List.isPrefixOf_iff_prefix, List.append_assoc]
        refine ⟨fun hp ↦ ?_, fun hp ↦ ⟨hp.length_le, hp.trans (List.prefix_append _ _)⟩⟩
        exact List.prefix_of_prefix_length_le hp.2 (List.prefix_append _ _) hp.1
      have hle : ¬ name.length > (MemberName.embedded name).front.length + contents.length :=
        Nat.not_lt.mpr (Nat.le_add_right _ _)
      rw [archiveFilename, if_pos hbsd, hdecimal]
      refine (if_neg hle).trans (congrArg (fun index ↦ some (name.length, index)) ?_)
      rw [hgnu, Bool.false_or]
      exact hindex

variable (m : StoredMember)

theorem StoredMember.length_header : m.header.length = 60 := by
  obtain ⟨-, hle, -⟩ := m.name.header_fits m.name_fits
    (Nat.lt_of_le_of_lt (Nat.le_add_right _ _) m.size_lt)
  have hdigits := length_padded (length_toDigits_le (n := m.size) (by decide) m.size_lt)
  rw [StoredMember.header, List.length_append, List.length_append, List.length_append,
    length_padded hle, hdigits, m.attributes_length]
  rfl

/-- What follows a written member. -/
theorem StoredMember.archiveAfter_write (rest : Text) :
    archiveAfter m.size
      (m.name.front ++ m.contents ++ ((if m.size % 2 = 1 then ['\n'] else []) ++ rest)) =
      some rest := by
  have hdrop : ∀ after : Text, (m.name.front ++ m.contents ++ after).drop m.size = after :=
    fun after ↦ List.drop_left' (List.length_append ..)
  rw [archiveAfter, hdrop]
  by_cases hodd : m.size % 2 = 1
  · rw [if_pos hodd, if_pos hodd]
    rfl
  · rw [if_neg hodd, if_neg hodd]
    rfl

/-- A written member is read back, whatever follows it. -/
theorem StoredMember.archiveMember_write (rest : Text) :
    archiveMember (m.write ++ rest) = some (m.name.index, m.contents, rest) := by
  have hlt : m.name.front.length < 10 ^ 10 := Nat.lt_of_le_of_lt (Nat.le_add_right _ _) m.size_lt
  obtain ⟨hne, hle, hlast⟩ := m.name.header_fits m.name_fits hlt
  have hname := length_padded hle
  have hdigits := length_padded (length_toDigits_le (n := m.size) (by decide) m.size_lt)
  generalize hbody : m.name.front ++ m.contents ++
    ((if m.size % 2 = 1 then ['\n'] else []) ++ rest) = body
  have hwrite : m.write ++ rest = m.header ++ body := by
    simp only [StoredMember.write, ← hbody, List.append_assoc]
  have hheader : (m.header ++ body).take 60 = m.header := List.take_left' m.length_header
  have hdrop : (m.header ++ body).drop 60 = body := List.drop_left' m.length_header
  have hmagic : m.header.drop 58 = "`\n".toList := by
    refine List.drop_left' ?_
    rw [List.length_append, List.length_append, hname, hdigits, m.attributes_length]
  have htake : m.header.take 16 = padded 16 m.name.header := by
    rw [StoredMember.header, List.append_assoc, List.append_assoc]
    exact List.take_left' hname
  have hsize : (m.header.drop 48).take 10 = padded 10 (Nat.toDigits 10 m.size) := by
    rw [StoredMember.header, List.append_assoc, List.drop_left' (by
      rw [List.length_append, hname, m.attributes_length])]
    exact List.take_left' hdigits
  have hlong : ¬ ((m.header ++ body).length < 60 ∨ m.header.drop 58 ≠ "`\n".toList) := by
    rw [List.length_append, m.length_header, hmagic]
    exact not_or_intro (by omega) (not_not.mpr rfl)
  have hfits : ¬ (m.size > body.length ∨ m.name.header = []) := by
    refine not_or_intro ?_ hne
    rw [← hbody, List.length_append, List.length_append]
    exact Nat.not_lt.mpr (Nat.le_add_right _ _)
  have hdecimal : archiveDecimal (padded 10 (Nat.toDigits 10 m.size)) = some m.size :=
    archiveDecimal_toDigits (Nat.le_trans (Nat.le_of_lt m.size_lt) (by decide)) _
  have hfilename : archiveFilename m.name.header m.size body =
      some (m.name.front.length, m.name.index) := by
    rw [← hbody]
    exact archiveFilename_header m.name_fits m.size_lt
  have hcontents : (body.take m.size).drop m.name.front.length = m.contents := by
    have hsize : (m.name.front ++ m.contents).length = m.size := List.length_append ..
    rw [← hbody, List.take_left' hsize]
    exact List.drop_left
  rw [hwrite, archiveMember]
  dsimp only
  rw [hheader, hdrop, if_neg hlong, hsize, hdecimal, htake, stripped_padded hne hlast]
  dsimp only
  rw [if_neg hfits, hfilename, Option.bind_some, ← hbody, m.archiveAfter_write, hbody,
    Option.map_some, hcontents]

variable {m} in
theorem regular_cons_of_index (members : List StoredMember) (h : m.name.index = true) :
    regular (m :: members) = regular members :=
  List.filter_cons_of_neg (by rw [h]; exact Bool.false_ne_true)

variable {m} in
theorem regular_cons_of_not_index (members : List StoredMember) (h : m.name.index = false) :
    regular (m :: members) = m :: regular members :=
  List.filter_cons_of_pos (by rw [h]; rfl)

/-- The written members are read back, as many as there is room for. -/
theorem archiveMembersFrom_write (members : List StoredMember) (capacity : Nat) :
    archiveMembersFrom capacity (members.flatMap StoredMember.write).length
        (members.flatMap StoredMember.write) =
      if (regular members).length ≤ capacity then some ((regular members).map (·.contents))
      else none := by
  induction members generalizing capacity with
  | nil => exact (if_pos (Nat.zero_le capacity)).symm
  | cons m members ih =>
      obtain ⟨c, s, hcons⟩ := List.exists_cons_of_length_pos (l := m.write) (by
        rw [StoredMember.write, List.length_append, List.length_append, List.length_append,
          m.length_header]
        omega)
      have hmember := m.archiveMember_write (members.flatMap StoredMember.write)
      have hle : (members.flatMap StoredMember.write).length ≤
          (s ++ members.flatMap StoredMember.write).length := by
        rw [List.length_append]
        exact Nat.le_add_left _ _
      rw [List.flatMap_cons, hcons, List.cons_append] at *
      rw [List.length_cons, archiveMembersFrom, hmember]
      dsimp only
      rw [archiveMembersFrom_eq hle, archiveMembersFrom_eq hle, ih, ih]
      cases hindex : m.name.index with
      | true =>
          rw [if_pos rfl, regular_cons_of_index members hindex]
      | false =>
          rw [if_neg Bool.false_ne_true, regular_cons_of_not_index members hindex, List.length_cons]
          cases capacity with
          | zero => rw [if_pos rfl, if_neg (Nat.not_succ_le_zero _)]
          | succ capacity =>
              rw [if_neg (Nat.succ_ne_zero _), Nat.succ_sub_one]
              by_cases hroom : (regular members).length ≤ capacity
              · rw [if_pos hroom, if_pos (Nat.succ_le_succ hroom)]
                rfl
              · rw [if_neg hroom, if_neg (fun h ↦ hroom (Nat.le_of_succ_le_succ h))]
                rfl

/-- The members of a written archive are read back. -/
theorem archiveMembers_write (members : List StoredMember) (capacity : Nat) :
    archiveMembers capacity (writeArchive members) =
      if (regular members).length ≤ capacity then some ((regular members).map (·.contents))
      else none := by
  have hinitial : "!<arch>\n".toList <+: writeArchive members := List.prefix_append _ _
  have hdrop : (writeArchive members).drop 8 = members.flatMap StoredMember.write :=
    List.drop_left' (show "!<arch>\n".toList.length = 8 from rfl)
  have hle : ((writeArchive members).drop 8).length ≤ (writeArchive members).length := by
    rw [List.length_drop]
    exact Nat.sub_le _ _
  rw [archiveMembers, if_pos (List.isPrefixOf_iff_prefix.mpr hinitial), archiveMembersFrom_eq hle,
    hdrop]
  exact archiveMembersFrom_write members capacity

theorem walkMembers_write (members : List StoredMember) (capacity : Nat) :
    (walkMembers capacity (writeArchive members) (writeArchive members).length).map
        (·.map (Walk.texts (writeArchive members))) =
      some (if (regular members).length ≤ capacity then some ((regular members).map (·.contents))
        else none) := by
  obtain ⟨r, hr, -⟩ := walkMembers_ordered capacity (writeArchive members)
  rw [hr, Option.map_some, ← archiveMembers_eq_walk hr, archiveMembers_write]

end Written

/-! ## Parsing archives -/

/-- Of an archive in one of the layouts exactly the contents of the members that are no index are
stored, in order, or it is rejected as there is no room for them.  Whatever the bytes of an archive
are, the walk ends, after not more rounds than there are bytes, and either rejects the archive or
stores members that stand in it one behind the other, with the cursor behind the last byte. -/
theorem archive_parsing (capacity : Nat) :
    (∀ members : List StoredMember,
      (walkMembers capacity (writeArchive members) (writeArchive members).length).map
          (·.map (Walk.texts (writeArchive members))) =
        some (if (regular members).length ≤ capacity then some ((regular members).map (·.contents))
          else none)) ∧
    ∀ archive : Text, ∃ r, walkMembers capacity archive archive.length = some r ∧
      ∀ w, r = some w → w.Ordered archive ∧ w.cursor = archive.length :=
  ⟨fun members ↦ walkMembers_write members capacity, walkMembers_ordered capacity⟩

/-- An empty member. -/
def emptyMember : StoredMember where
  name := .field "u/".toList
  attributes := List.replicate 32 ' '
  contents := []
  name_fits := ⟨by decide, by decide, by decide, by decide⟩
  attributes_length := List.length_replicate
  size_lt := by decide

/-- The linker has room for 256 members: an archive of 257 is not read. -/
theorem archive_parsing_capacity :
    ¬ ∀ members : List StoredMember,
      (walkMembers maxArchiveMembers (writeArchive members) (writeArchive members).length).map
          (·.map (Walk.texts (writeArchive members))) =
        some (some ((regular members).map (·.contents))) := by
  intro h
  have hcount : (regular (List.replicate 257 emptyMember)).length = 257 := by
    rw [regular, List.filter_replicate_of_pos rfl, List.length_replicate]
  have hread := h (List.replicate 257 emptyMember)
  rw [walkMembers_write, hcount, if_neg (by decide)] at hread
  nomatch hread

end CopySpace.Link
