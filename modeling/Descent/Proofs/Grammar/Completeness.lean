import Descent.Proofs.Grammar.Occurrences

/-!
# Which rules are missing

A history of calls says which names a builder knows (`Builder.Interned`) and which of them have a
body (`Builder.Declares`), whatever has failed on the way: a declaration that fails has mentioned
the rules up to the leaf where it fails, and one that is refused has mentioned none. The names in the
first set and not in the second are the missing ones. They are listed in the order of their bytes,
and a grammar is closed if and only if there are none (`Builder.accounted_afterAll`).
-/

namespace Descent

/-! ## The order of names -/

theorem toUTF8_eq_flatMap (s : String) :
    s.toUTF8.data.toList = s.toList.flatMap String.utf8EncodeChar := by
  rw [String.toUTF8_eq_toByteArray, ← String.utf8Encode_toList, List.utf8Encode]
  simp

/-- The bytes of a smaller character are smaller, whatever comes after them. -/
theorem utf8EncodeChar_lt {c d : Char} (h : c < d) (xs ys : List UInt8) :
    String.utf8EncodeChar c ++ xs < String.utf8EncodeChar d ++ ys := by
  have hlt : c.val.toNat < d.val.toNat := h
  have hvalid : d.val.toNat < 0x110000 := by
    rcases d.valid with hd | hd
    · exact hd.trans (by decide)
    · exact hd.2
  unfold String.utf8EncodeChar
  dsimp only
  generalize c.val.toNat = a at *
  generalize d.val.toNat = b at *
  -- one case for each pair of lengths
  split_ifs <;>
    simp (disch := omega) only [List.cons_append, List.nil_append, List.cons_lt_cons_iff,
      UInt8.lt_iff_toNat_lt, ← UInt8.toNat_inj, UInt8.toNat_ofNat', Nat.mod_eq_of_lt] <;>
    omega

/-- Strings are ordered like their bytes. -/
theorem toUTF8_lt {s t : String} (h : s < t) : s.toUTF8.data.toList < t.toUTF8.data.toList := by
  rw [toUTF8_eq_flatMap, toUTF8_eq_flatMap]
  have hchars : s.toList < t.toList := h
  generalize s.toList = l at hchars ⊢
  generalize t.toList = m at hchars ⊢
  induction hchars with
  | @nil c cs =>
    cases hc : String.utf8EncodeChar c with
    | nil => exact absurd hc String.utf8EncodeChar_ne_nil
    | cons x xs => simp [hc]
  | cons _ ih => exact List.append_left_lt ih
  | rel h => exact utf8EncodeChar_lt h _ _

namespace Builder

open Occurrence

variable {b b' : Builder} {nm : String}

/-! ## Declared names -/

/-- One of the calls is a declaration of the rule with a body that is accepted. -/
def Declares (calls : List Call) (nm : String) : Prop :=
  ∃ body resync, .rule nm body resync ∈ calls ∧ Accepted body.leaves

theorem Indexed.isDeclared_name (h : b.Indexed) {r : RuleId} {slot : Slot}
    (hslot : b.slots[r]? = some slot) : b.isDeclared slot.name = slot.definition.isSome := by
  have hname : b.names[r]? = some slot.name := by
    rw [Builder.names, List.getElem?_map, Array.getElem?_toList, hslot]
    rfl
  have hid : b.ruleId? slot.name = some r := h.ruleId?_eq_some.2 hname
  rw [isDeclared, hid, Option.any_some, isDefined_of_slot hslot]

theorem Indexed.isDeclared_iff (h : b.Indexed) : b.isDeclared nm = true ↔
    ∃ (r : RuleId) (slot : Slot) (d : Rule), b.slots[r]? = some slot ∧ slot.name = nm ∧
      slot.definition = some d := by
  constructor
  · intro hdeclared
    unfold isDeclared at hdeclared
    cases hid : b.ruleId? nm with
    | none => simp [hid] at hdeclared
    | some r =>
      rw [hid, Option.any_some, isDefined_iff] at hdeclared
      obtain ⟨slot, d, hslot, hd⟩ := hdeclared
      have hname := h.ruleId?_eq_some.1 hid
      rw [Builder.names, List.getElem?_map, Array.getElem?_toList, hslot] at hname
      exact ⟨r, slot, d, hslot, Option.some.inj hname, hd⟩
  · rintro ⟨r, slot, d, hslot, rfl, hd⟩
    rw [h.isDeclared_name hslot, hd]
    rfl

/-- A rule is declared after a call if it was before, or if the call declares it with a body that is
accepted. -/
theorem Reached.isDeclared_after (h : b.Reached) (c : Call) :
    (b.after c).isDeclared nm = true ↔ b.isDeclared nm = true ∨ Declares [c] nm := by
  rw [(h.after c).sound.indexed.isDeclared_iff, h.sound.indexed.isDeclared_iff]
  constructor
  · rintro ⟨r, slot, d, hslot, hname, hd⟩
    rcases h.body_cases c hslot hd with hold | ⟨nm', body, resync, rfl, hnew, hrule⟩
    · exact .inl ⟨r, slot, d, hold, hname, hd⟩
    · have houtcome := h.rule_outcome hnew body resync
      rw [hrule] at houtcome
      obtain ⟨haccepted, ⟨n, hn, -⟩, -⟩ := houtcome
      rw [hslot] at hn
      cases hn
      subst hname
      exact .inr ⟨body, resync, List.mem_singleton_self _, haccepted⟩
  · rintro (⟨r, slot, d, hslot, hname, hd⟩ | ⟨body, resync, hc, haccepted⟩)
    · exact ⟨r, slot, d, (h.after_extends c).bodies hslot hd, hname, hd⟩
    · obtain rfl := List.mem_singleton.1 hc
      cases hdeclared : b.isDeclared nm with
      | true =>
        obtain ⟨r, slot, d, hslot, hname, hd⟩ := h.sound.indexed.isDeclared_iff.1 hdeclared
        exact ⟨r, slot, d, (h.after_extends _).bodies hslot hd, hname, hd⟩
      | false =>
        obtain ⟨r, b', hrule⟩ := h.rule_of_accepted hdeclared haccepted resync
        have houtcome := h.rule_outcome hdeclared body resync
        rw [hrule] at houtcome
        obtain ⟨-, ⟨n, hslot, -⟩, -⟩ := houtcome
        rw [after_of_ok hrule]
        exact ⟨r, _, _, hslot, rfl, rfl⟩

theorem declares_cons : Declares (c :: calls) nm ↔ Declares [c] nm ∨ Declares calls nm := by
  unfold Declares
  simp only [List.mem_cons, List.not_mem_nil, or_false, or_and_right, exists_or]

theorem Reached.isDeclared_afterAll (h : b.Reached) (calls : List Call) :
    (b.afterAll calls).isDeclared nm = true ↔ b.isDeclared nm = true ∨ Declares calls nm := by
  induction calls generalizing b with
  | nil => simp [Builder.afterAll, Declares]
  | cons c calls ih =>
    rw [declares_cons, ← or_assoc, ← h.isDeclared_after c]
    exact ih (h.after c)

/-! ## Known names -/

/-- The leaf is lowered: the leaves before it are accepted. -/
def Lowered (leaves : List WrittenLeaf) (leaf : WrittenLeaf) : Prop :=
  ∃ before, before ++ [leaf] <+: leaves ∧ Accepted before

/-- The call interns the name, where these rules are declared already. -/
def Call.Interns (declared : String → Prop) (nm : String) : Call → Prop
  | .terminal _ => False
  | .declare other => nm = other
  | .rule other body _ => nm = other ∨
      ¬ declared other ∧ ∃ pin, Lowered body.leaves (.rule nm, pin)

/-- One of the calls interns the name. -/
def Interned (calls : List Call) (nm : String) : Prop :=
  ∃ before c, before ++ [c] <+: calls ∧ c.Interns (Declares before) nm

theorem interned_concat : Interned (calls ++ [c]) nm ↔
    Interned calls nm ∨ c.Interns (Declares calls) nm := by
  constructor
  · rintro ⟨before, c', hpre, hinterns⟩
    rcases List.prefix_concat_iff.1 hpre with heq | hpre
    · obtain ⟨rfl, hc⟩ := List.append_inj' heq rfl
      obtain rfl := List.singleton_inj.1 hc
      exact .inr hinterns
    · exact .inl ⟨before, c', hpre, hinterns⟩
  · rintro (⟨before, c', hpre, hinterns⟩ | hinterns)
    · exact ⟨before, c', hpre.trans (List.prefix_append ..), hinterns⟩
    · exact ⟨calls, c, List.prefix_rfl, hinterns⟩

section Lowered

variable {leaves seen before : List WrittenLeaf} {last leaf : WrittenLeaf}

theorem Lowered.of_mem (hpre : seen <+: leaves) (haccepted : Accepted seen.dropLast)
    (h : leaf ∈ seen) : Lowered leaves leaf := by
  obtain ⟨before, after, rfl⟩ := List.append_of_mem h
  refine ⟨before, .trans ⟨after, by simp⟩ hpre, haccepted.of_isPrefix ?_⟩
  rw [List.dropLast_append_cons]
  exact List.prefix_append ..

theorem lowered_iff_of_accepted (haccepted : Accepted leaves) :
    Lowered leaves leaf ↔ leaf ∈ leaves := by
  constructor
  · rintro ⟨before, hpre, -⟩
    exact hpre.subset (by simp)
  · exact .of_mem List.prefix_rfl (haccepted.of_isPrefix (List.dropLast_prefix _))

/-- The last leaf that is lowered is the first one in trouble. -/
theorem lowered_iff_of_trouble (hpre : before ++ [last] <+: leaves) (haccepted : Accepted before)
    (htrouble : trouble? (numbered before) last = some trouble) :
    Lowered leaves leaf ↔ leaf ∈ before ++ [last] := by
  constructor
  · rintro ⟨before', hpre', haccepted'⟩
    have hle : before'.length ≤ before.length := by
      by_contra hlt
      have hearlier : before ++ [last] <+: before' :=
        List.prefix_of_prefix_length_le hpre ((List.prefix_append ..).trans hpre')
          (by simpa using hlt)
      rw [haccepted' before last hearlier] at htrouble
      cases htrouble
    have hseen : before' ++ [leaf] <+: before ++ [last] :=
      List.prefix_of_prefix_length_le hpre' hpre (by simpa using hle)
    exact hseen.subset (by simp)
  · exact .of_mem hpre (by rwa [List.dropLast_concat])

end Lowered

theorem Indexed.mem_names (h : b.Indexed) (hdeclared : b.isDeclared nm = true) :
    nm ∈ b.names := by
  unfold isDeclared at hdeclared
  cases hid : b.ruleId? nm with
  | none => simp [hid] at hdeclared
  | some r => exact List.mem_of_getElem? (h.ruleId?_eq_some.1 hid)

/-- The names that are known after a call: those that were known before, and those that the call
interns. -/
theorem Reached.mem_names_after (h : b.Reached) (c : Call) : nm ∈ (b.after c).names ↔
    nm ∈ b.names ∨ c.Interns (fun other => b.isDeclared other = true) nm := by
  cases c with
  | terminal other =>
    unfold Builder.after Call.Interns
    dsimp only
    split
    next hok => rw [Builder.names, (extends_terminal hok).2, or_false, Builder.names]
    next => rw [or_false]
  | declare other =>
    have hmentions := (h.sound.indexed.declare_mentions other none).names nm
    simpa [Call.Interns, Builder.after] using hmentions
  | rule other body resync =>
    unfold Call.Interns
    dsimp only
    cases hdeclared : b.isDeclared other with
    | true =>
      rw [after_of_error (rule_of_declared hdeclared ..)]
      have hmem : other ∈ b.names := h.sound.indexed.mem_names hdeclared
      simp only [not_true_eq_false, false_and, or_false]
      exact ⟨.inl, fun h => h.elim id (· ▸ hmem)⟩
    | false =>
      have hmem (seen : List WrittenLeaf) :
          .rule nm ∈ ((.rule other, none) :: seen).map Prod.fst ↔
            nm = other ∨ ∃ pin, (.rule nm, pin) ∈ seen := by
        simp
      simp only [Bool.false_eq_true, not_false_eq_true, true_and]
      have houtcome := h.rule_outcome hdeclared body resync
      cases hrule : Builder.rule other body resync b with
      | ok r b' =>
        rw [hrule] at houtcome
        obtain ⟨haccepted, -, hmentions⟩ := houtcome
        rw [after_of_ok hrule, hmentions.names, hmem]
        simp only [lowered_iff_of_accepted haccepted]
      | error failure b' =>
        rw [hrule] at houtcome
        obtain ⟨before, last, trouble, hpre, haccepted, htrouble, -, hmentions⟩ := houtcome
        rw [after_of_error hrule, hmentions.names, hmem]
        simp only [lowered_iff_of_trouble hpre haccepted htrouble]

/-- A builder knows the names that its history has interned. -/
theorem mem_names_iff_interned (start : String) (calls : List Call) :
    nm ∈ (afterAll { name := start } calls).names ↔ Interned calls nm := by
  induction calls using List.reverseRecOn with
  | nil => simp [afterAll, Builder.names, Interned]
  | append_singleton calls c ih =>
    have hreached : (afterAll { name := start } calls).Reached := (Reached.start start).afterAll calls
    have hdeclares : (fun other => (afterAll { name := start } calls).isDeclared other = true) =
        Declares calls := by
      funext other
      rw [(Reached.start start).isDeclared_afterAll calls]
      simp [isDeclared, ruleId?]
    rw [afterAll_concat, hreached.mem_names_after, ih, interned_concat, hdeclares]

/-! ## Missing names -/

theorem missing_perm (b : Builder) :
    b.missing.Perm ((b.slots.toList.filter (·.definition.isNone)).map Slot.name) := by
  refine (List.mergeSort_perm ..).trans ?_
  rw [← List.filterMap_eq_map, ← List.filterMap_eq_filter, List.filterMap_filterMap]
  refine .of_eq (List.filterMap_congr fun slot _ => ?_)
  obtain ⟨name, definition⟩ := slot
  cases definition <;> rfl

theorem Indexed.mem_missing (h : b.Indexed) :
    nm ∈ b.missing ↔ nm ∈ b.names ∧ b.isDeclared nm = false := by
  rw [b.missing_perm.mem_iff, Builder.names]
  simp only [List.mem_map, List.mem_filter]
  constructor
  · rintro ⟨slot, ⟨hslot, hnone⟩, rfl⟩
    obtain ⟨r, hr⟩ := List.mem_iff_getElem?.1 hslot
    rw [Array.getElem?_toList] at hr
    exact ⟨⟨slot, hslot, rfl⟩, by rw [h.isDeclared_name hr]; simpa using hnone⟩
  · rintro ⟨⟨slot, hslot, rfl⟩, hdeclared⟩
    obtain ⟨r, hr⟩ := List.mem_iff_getElem?.1 hslot
    rw [Array.getElem?_toList] at hr
    rw [h.isDeclared_name hr] at hdeclared
    exact ⟨slot, ⟨hslot, by simpa using hdeclared⟩, rfl⟩

/-- The missing names are listed in the order of their bytes, each of them once. -/
theorem Indexed.missing_sorted (h : b.Indexed) :
    b.missing.Pairwise fun x y => x.toUTF8.data.toList < y.toUTF8.data.toList := by
  have hnodup : b.missing.Nodup :=
    b.missing_perm.nodup_iff.2 (h.nodup.sublist (List.filter_sublist.map _))
  have hsorted : b.missing.Pairwise (· ≤ ·) := by
    have hle : b.missing.Pairwise fun x y => decide (x ≤ y) = true :=
      List.pairwise_mergeSort (fun x y z => by simpa using le_trans)
        (fun x y => by simpa using le_total x y) _
    exact hle.imp of_decide_eq_true
  exact (hsorted.and hnodup).imp fun ⟨hle, hne⟩ => toUTF8_lt (lt_of_le_of_ne hle hne)

theorem missing_eq_nil : b.missing = [] ↔ b.slots.all (·.definition.isSome) = true := by
  rw [← List.length_eq_zero_iff, b.missing_perm.length_eq, ← Array.all_toList, List.all_eq_true]
  simp [Option.isSome_iff_ne_none]

theorem exists_build_iff : (∃ g, b.build = .ok g) ↔ b.missing = [] := by
  rw [missing_eq_nil]
  unfold build
  split
  next hall => simp [hall]
  next hall => simp [hall]

theorem build_of_missing (h : b.missing ≠ []) :
    b.build = .error (.undeclaredRules b.name b.missing) := by
  unfold build
  rw [if_neg (missing_eq_nil.not.1 h)]

/-! ## Histories -/

/-- What a builder owes to its history of calls. -/
structure Accounted (b : Builder) (calls : List Call) : Prop where
  /-- A call adds nodes and names and fills one empty slot at most; nothing else changes. -/
  keeps : ∀ c, b.Extends (b.after c) ∧ b.FillsOne (b.after c)
  /-- What is there stays for good. -/
  stays : ∀ later, b.Extends (b.afterAll later)
  /-- A declaration is refused if and only if its rule is declared. -/
  refuses : ∀ nm body resync, (∃ grammar other b', Builder.rule nm body resync b =
    .error (.malformed (.duplicateRule grammar other)) b') ↔ b.isDeclared nm = true
  /-- A refused declaration leaves the builder alone. -/
  refused : ∀ nm body resync, b.isDeclared nm = true →
    Builder.rule nm body resync b = .error (.malformed (.duplicateRule b.name nm)) b
  /-- A rule whose declaration fails otherwise is not declared, and what was there stays. It can be
  declared at any time later. -/
  retries : ∀ nm body resync failure b', b.isDeclared nm = false →
    Builder.rule nm body resync b = .error failure b' →
    b'.isDeclared nm = false ∧ b.Extends b' ∧
      ∀ later body' resync', ¬ Declares later nm → Accepted body'.leaves →
        ∃ r b'', Builder.rule nm body' resync' (b'.afterAll later) = .ok r b''
  declared : ∀ nm, b.isDeclared nm = true ↔ Declares calls nm
  /-- The missing names are those that are interned and have no body. -/
  missing : ∀ nm, nm ∈ b.missing ↔ Interned calls nm ∧ ¬ Declares calls nm
  sorted : b.missing.Pairwise fun x y => x.toUTF8.data.toList < y.toUTF8.data.toList
  builds : (∃ g, b.build = .ok g) ↔ b.missing = []
  incomplete : b.missing ≠ [] → b.build = .error (.undeclaredRules b.name b.missing)

/-- A failure that is no refusal is about a leaf. -/
theorem Reached.not_refused {failure : Failure} (h : b.Reached) (hnew : b.isDeclared nm = false)
    (hrule : Builder.rule nm body resync b = .error failure b') :
    ¬ Accepted body.leaves ∧ ∀ grammar other, failure ≠ .malformed (.duplicateRule grammar other) := by
  have houtcome := h.rule_outcome hnew body resync
  rw [hrule] at houtcome
  obtain ⟨before, leaf, trouble, hpre, haccepted, htrouble, rfl, -⟩ := houtcome
  refine ⟨FirstTrouble.not_accepted ⟨before, leaf, hpre, haccepted, htrouble⟩, ?_⟩
  cases trouble <;> rintro _ _ ⟨⟩

/-- Every history of calls leaves a builder that is accounted for: what is given is never changed,
failed declarations cost nothing but a retry, and a grammar is closed if and only if every name that
the history has interned has got a body. -/
theorem accounted_afterAll (start : String) (calls : List Call) :
    (afterAll { name := start } calls).Accounted calls := by
  have hstart : Reached { name := start } := .start start
  have hb := hstart.afterAll calls
  have hdeclared : ∀ nm, (afterAll { name := start } calls).isDeclared nm = true ↔
      Declares calls nm := by
    intro nm
    rw [hstart.isDeclared_afterAll calls]
    simp [isDeclared, ruleId?]
  constructor
  case keeps => exact fun c => ⟨hb.after_extends c, hb.after_fillsOne c⟩
  case stays => exact hb.afterAll_extends
  case refuses =>
    intro nm body resync
    constructor
    · rintro ⟨grammar, other, b', hrule⟩
      by_contra hnew
      exact (hb.not_refused (by simpa using hnew) hrule).2 grammar other rfl
    · exact fun h => ⟨_, _, _, rule_of_declared h body resync⟩
  case refused => exact fun nm body resync h => rule_of_declared h body resync
  case retries =>
    intro nm body resync failure b' hnew hrule
    have hb' := hb.ruleFailed hrule
    have hstill : b'.isDeclared nm = false := by
      by_contra hnow
      rw [Bool.not_eq_false, ← after_of_error hrule, hb.isDeclared_after, hnew] at hnow
      obtain ⟨_, _, hmem, haccepted⟩ := hnow.resolve_left Bool.false_ne_true
      cases List.mem_singleton.1 hmem
      exact (hb.not_refused hnew hrule).1 haccepted
    refine ⟨hstill, after_of_error hrule ▸ hb.after_extends _, ?_⟩
    intro later body' resync' hlater haccepted
    refine (hb'.afterAll later).rule_of_accepted ?_ haccepted resync'
    rw [← Bool.not_eq_true, hb'.isDeclared_afterAll later, hstill]
    simpa using hlater
  case declared => exact hdeclared
  case missing =>
    intro nm
    rw [hb.sound.indexed.mem_missing, mem_names_iff_interned, ← hdeclared, Bool.not_eq_true]
  case sorted => exact hb.sound.indexed.missing_sorted
  case builds => exact exists_build_iff
  case incomplete => exact build_of_missing

end Builder

/-- A declaration that fails at its third leaf has mentioned the rules of the two before it, and the
refused one none. -/
example : (Builder.afterAll { name := "gaps" }
    [.rule "top" (.group .sequence [Sample.rule "éclair", Sample.rule "end", Sample.token 0 (some 0),
      Sample.rule "lost"]) true, .rule "end" (Sample.token 0 none) true,
      .rule "end" (Sample.rule "lost") true]).missing = ["top", "éclair"] := by
  cbv

end Descent
