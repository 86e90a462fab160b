import DynamicRange.Layout.Document
import DynamicRange.Proofs.Layout.Derivation

/-!
# Layouts read from documents

A document gives bounds if it is a record that names each of the three once, whatever else it
names, or a list of just the three (`Document.Gives`). `ofDocument_faithful` says that reading a
layout from a document comes to deriving it from the bounds that the document gives. Nothing else in
the document has a part in it, so a document cannot bring a layout that does not match its bounds,
and every layout there is is read back from what it is written to.

This holds for whatever functions read and write the bounds themselves, as long as they keep to a
few rules (`Bounds.Reads`, `Bounds.Writes`): which records and lists are read, and for each of the
ways in which a document may fall short that it is not. `Bounds.Reads.eq_some_iff` draws from them
that the bounds read are those given. `Bounds.ofDocument?` and `Bounds.toDocument` keep to them.

What is written gives the bounds because those of an accepted layout are numbers of the sizes that
are read (`Bounds.Sized`): of the three only the highest value has to be known to be one, since the
lowest is less than half of it and there are at most five digits (`Bounds.sized_of_ofBounds`).
-/

namespace DynamicRange

namespace Document

/-- Whether a value is the only one that members have under a name. -/
def Named (members : List (String × Document)) (name : String) (d : Document) : Prop :=
  (name, d) ∈ members ∧ members.countP (·.1 = name) = 1

/-- Whether a document gives bounds: it names the three in a record or lists them. -/
inductive Gives (b : Bounds) : Document → Prop where
  /-- A record that names each of the three bounds once, and whatever else. -/
  | record {members : List (String × Document)}
    (hlowest : Named members "lowest_trackable_value" (.integer b.lowest))
    (hhighest : Named members "highest_trackable_value" (.integer b.highest))
    (hdigits : Named members "significant_figures" (.integer b.digits)) :
    Gives b (.record members)
  /-- A list of the three bounds and nothing else. -/
  | list : Gives b (.list [.integer b.lowest, .integer b.highest, .integer b.digits])

variable {members : List (String × Document)} {items : List Document} {name : String}
  {d d' : Document}

/-- The member found under a name is the only one that has it. -/
theorem member?_eq_some_iff : member? members name = some d ↔ Named members name d := by
  rw [member?, Named, List.countP_eq_length_filter]
  constructor
  · intro h
    split at h
    · next key value hfilter =>
      cases h
      have hfound : (key, d) ∈ members.filter (·.1 = name) := hfilter ▸ List.mem_singleton_self _
      obtain ⟨hmem, hname⟩ := List.mem_filter.mp hfound
      obtain rfl : key = name := of_decide_eq_true hname
      exact ⟨hmem, congrArg List.length hfilter⟩
    · cases h
  · rintro ⟨hmem, hcount⟩
    obtain ⟨m, hfilter⟩ := List.length_eq_one_iff.mp hcount
    have hfound : (name, d) ∈ members.filter (·.1 = name) :=
      List.mem_filter.mpr ⟨hmem, decide_eq_true rfl⟩
    rw [hfilter] at hfound ⊢
    obtain rfl := List.mem_singleton.mp hfound
    rfl

/-- Under a name that is given once there is one value. -/
theorem Named.unique (h : Named members name d) (hmem : (name, d') ∈ members) : d' = d := by
  have hfound := member?_eq_some_iff.mpr h
  rw [member?_eq_some_iff.mpr ⟨hmem, h.2⟩] at hfound
  exact Option.some.inj hfound

/-- A value is read as an integer if it is one between the ends. -/
theorem integerWithin?_eq_some_iff {low high n : ℤ} :
    d.integerWithin? low high = some n ↔ d = .integer n ∧ low ≤ n ∧ n ≤ high := by
  cases d with
  | integer k =>
    rw [integerWithin?, Option.ite_none_right_eq_some, Option.some_inj, integer.injEq]
    constructor
    · rintro ⟨hwithin, rfl⟩
      exact ⟨rfl, hwithin⟩
    · rintro ⟨rfl, hwithin⟩
      exact ⟨hwithin, rfl⟩
  | _ => simp [integerWithin?]

end Document

namespace Bounds

variable {b : Bounds}

/-- Whether bounds are numbers of the sizes that are read: two of 64 bits with a sign and one of
8 bits without. -/
structure Sized (b : Bounds) : Prop where
  lowest : -2 ^ 63 ≤ b.lowest ∧ b.lowest < 2 ^ 63
  highest : -2 ^ 63 ≤ b.highest ∧ b.highest < 2 ^ 63
  digits : b.digits < 2 ^ 8

/-- Accepted bounds are of the sizes that are read, if the highest value is a value. -/
theorem sized_of_ofBounds {L : Layout} (hbounds : Layout.ofBounds b = .ok L)
    (hhighest : b.highest ≤ topValue) : b.Sized := by
  have htop : (topValue : ℤ) = 2 ^ 63 - 1 := rfl
  obtain ⟨hlowest, ⟨-, hdigits⟩, htwice, -⟩ :=
    (Layout.exists_ofBounds_eq_ok_iff b).mp ⟨L, hbounds⟩
  exact ⟨by omega, by omega, by omega⟩

/-! ## Reading and writing bounds -/

/-- What documents tell of a bound: its name, and the least and the greatest number of its size. -/
structure Part where
  name : String
  least : ℤ
  greatest : ℤ

/-- The bounds in the order in which they are listed. -/
def parts : List Part :=
  [⟨"lowest_trackable_value", -2 ^ 63, 2 ^ 63 - 1⟩,
    ⟨"highest_trackable_value", -2 ^ 63, 2 ^ 63 - 1⟩,
    ⟨"significant_figures", 0, 2 ^ 8 - 1⟩]

/-- Whether a value is an integer of the size of a bound. -/
def Part.Takes (part : Part) (d : Document) : Prop :=
  ∃ n, d = .integer n ∧ part.least ≤ n ∧ n ≤ part.greatest

/-- What is relied on of a function that reads bounds from documents. -/
structure Reads (read? : Document → Option Bounds) : Prop where
  /-- The bounds in a record that names each of them once, or in a list of them, are read. -/
  given : ∀ d (b : Bounds), b.Sized → d.Gives b → read? d = some b
  /-- A record in which a bound is missing or repeated is not read. -/
  once : ∀ members, ∀ part ∈ parts, members.countP (·.1 = part.name) ≠ 1 →
    read? (.record members) = none
  /-- Nor is one in which a bound is not an integer of its size. -/
  member : ∀ members d, ∀ part ∈ parts, (part.name, d) ∈ members → ¬part.Takes d →
    read? (.record members) = none
  /-- A list of fewer or more items than there are bounds is not read. -/
  length : ∀ items, items.length ≠ 3 → read? (.list items) = none
  /-- Nor is one in which the item in the place of a bound is not an integer of its size. -/
  item : ∀ items, ∀ p ∈ parts.zip items, ¬p.1.Takes p.2 → read? (.list items) = none
  /-- Other documents than records and lists are not read. -/
  other : ∀ d, (∀ members, d ≠ .record members) → (∀ items, d ≠ .list items) → read? d = none

/-- What is relied on of a function that writes bounds to documents: a record has the three of them
under their names, in some order, and nothing else. -/
def Writes (write : Bounds → Document) : Prop :=
  ∀ b : Bounds, b.Sized → ∃ members, write b = .record members ∧
    members.Perm [("lowest_trackable_value", .integer b.lowest),
      ("highest_trackable_value", .integer b.highest), ("significant_figures", .integer b.digits)]

/-- Three numbers of the sizes that are read are bounds. -/
theorem exists_sized {l u k : ℤ} (hl : -2 ^ 63 ≤ l ∧ l ≤ 2 ^ 63 - 1)
    (hu : -2 ^ 63 ≤ u ∧ u ≤ 2 ^ 63 - 1) (hk : 0 ≤ k ∧ k ≤ 2 ^ 8 - 1) :
    ∃ b : Bounds, b.Sized ∧ b.lowest = l ∧ b.highest = u ∧ b.digits = k := by
  refine ⟨⟨l, u, k.toNat⟩,
    ⟨hl.imp_right Int.lt_of_le_sub_one, hu.imp_right Int.lt_of_le_sub_one, ?_⟩, rfl, rfl,
    Int.toNat_of_nonneg hk.1⟩
  dsimp only
  omega

/-- A record gives bounds exactly if it names each of them once and has an integer of its size
there. -/
theorem exists_gives_record_iff {members : List (String × Document)} :
    (∃ b : Bounds, b.Sized ∧ (Document.record members).Gives b) ↔
      ∀ part ∈ parts, ∃ d, Document.Named members part.name d ∧ part.Takes d := by
  rw [parts, List.forall_mem_cons, List.forall_mem_cons, List.forall_mem_singleton]
  constructor
  · rintro ⟨b, hsized, ⟨hl, hu, hk⟩⟩
    obtain ⟨hl', hu', hk'⟩ := hsized
    exact ⟨⟨_, hl, _, rfl, hl'.1, Int.le_sub_one_of_lt hl'.2⟩,
      ⟨_, hu, _, rfl, hu'.1, Int.le_sub_one_of_lt hu'.2⟩,
      _, hk, _, rfl, Int.natCast_nonneg _, by dsimp only; omega⟩
  · rintro ⟨⟨_, hl, l, rfl, hl'⟩, ⟨_, hu, u, rfl, hu'⟩, _, hk, k, rfl, hk'⟩
    obtain ⟨b, hsized, rfl, rfl, rfl⟩ := exists_sized hl' hu' hk'
    exact ⟨b, hsized, .record hl hu hk⟩

/-- A list gives bounds exactly if it has as many items, each an integer of the size of the bound in
its place. -/
theorem exists_gives_list_iff {items : List Document} :
    (∃ b : Bounds, b.Sized ∧ (Document.list items).Gives b) ↔
      items.length = 3 ∧ ∀ p ∈ parts.zip items, p.1.Takes p.2 := by
  constructor
  · rintro ⟨b, hsized, ⟨⟩⟩
    obtain ⟨hl, hu, hk⟩ := hsized
    refine ⟨rfl, ?_⟩
    simp only [parts, List.zip_cons_cons, List.zip_nil_right, List.forall_mem_cons]
    exact ⟨⟨_, rfl, hl.1, Int.le_sub_one_of_lt hl.2⟩, ⟨_, rfl, hu.1, Int.le_sub_one_of_lt hu.2⟩,
      ⟨_, rfl, Int.natCast_nonneg _, by dsimp only; omega⟩, nofun⟩
  · rintro ⟨hlength, htakes⟩
    obtain ⟨x, y, z, rfl⟩ := List.length_eq_three.mp hlength
    simp only [parts, List.zip_cons_cons, List.zip_nil_right, List.forall_mem_cons] at htakes
    obtain ⟨⟨l, rfl, hl⟩, ⟨u, rfl, hu⟩, ⟨k, rfl, hk⟩, -⟩ := htakes
    obtain ⟨b, hsized, rfl, rfl, rfl⟩ := exists_sized hl hu hk
    exact ⟨b, hsized, .list⟩

/-- The bounds that are read are those given, if they are of their sizes. -/
theorem Reads.eq_some_iff {read? : Document → Option Bounds} (hread : Reads read?) {d : Document} :
    read? d = some b ↔ b.Sized ∧ d.Gives b := by
  refine ⟨fun h => ?_, fun ⟨hsized, hgives⟩ => hread.given d b hsized hgives⟩
  -- Whatever is read is given, since otherwise one of the rules against it would apply.
  have hgiven : ∃ b : Bounds, b.Sized ∧ d.Gives b := by
    cases d with
    | record members =>
      refine exists_gives_record_iff.mpr fun part hpart => ?_
      have hcount : members.countP (·.1 = part.name) = 1 := by
        by_contra hcount
        cases h.symm.trans (hread.once members part hpart hcount)
      obtain ⟨⟨name, d⟩, hmem, hname⟩ := List.countP_pos_iff.mp (hcount ▸ one_pos)
      obtain rfl : name = part.name := of_decide_eq_true hname
      refine ⟨d, ⟨hmem, hcount⟩, ?_⟩
      by_contra htakes
      cases h.symm.trans (hread.member members d part hpart hmem htakes)
    | list items =>
      refine exists_gives_list_iff.mpr ⟨?_, fun p hp => ?_⟩
      · by_contra hlength
        cases h.symm.trans (hread.length items hlength)
      · by_contra htakes
        cases h.symm.trans (hread.item items p hp htakes)
    | _ => cases h.symm.trans (hread.other _ nofun nofun)
  obtain ⟨b', hsized, hgives⟩ := hgiven
  obtain rfl : b = b' := Option.some.inj (h.symm.trans (hread.given d b' hsized hgives))
  exact ⟨hsized, hgives⟩

/-- What is written gives the bounds. -/
theorem Writes.gives {write : Bounds → Document} (hwrite : Writes write) (hsized : b.Sized) :
    (write b).Gives b := by
  obtain ⟨members, heq, hperm⟩ := hwrite b hsized
  rw [heq]
  constructor <;> exact ⟨hperm.mem_iff.mpr (by simp), (hperm.countP_eq _).trans (by simp)⟩

/-! ## Records and lists as they are -/

/-- Three values give bounds exactly if they are these bounds, as integers of their sizes. -/
theorem ofParts?_eq_some_iff {lowest highest digits : Document} :
    ofParts? lowest highest digits = some b ↔ b.Sized ∧ lowest = .integer b.lowest ∧
      highest = .integer b.highest ∧ digits = .integer b.digits := by
  have htop : (topValue : ℤ) = 2 ^ 63 - 1 := rfl
  simp only [ofParts?, Option.bind_eq_bind, Option.bind_eq_some_iff, Option.some_inj,
    Document.integerWithin?_eq_some_iff]
  constructor
  · rintro ⟨l, ⟨rfl, hl⟩, h, ⟨rfl, hh⟩, k, ⟨rfl, hk⟩, rfl⟩
    refine ⟨⟨by simp only; omega, by simp only; omega, by simp only; omega⟩, rfl, rfl, ?_⟩
    rw [Int.toNat_of_nonneg hk.1]
  · rintro ⟨hsized, rfl, rfl, rfl⟩
    obtain ⟨hl, hh, hk⟩ := hsized
    exact ⟨_, ⟨rfl, by omega⟩, _, ⟨rfl, by omega⟩, _, ⟨rfl, by omega⟩, rfl⟩

/-- A document is read as the bounds that it gives, if they are of their sizes. -/
theorem ofDocument?_eq_some_iff {d : Document} : ofDocument? d = some b ↔ b.Sized ∧ d.Gives b := by
  constructor
  · intro h
    unfold ofDocument? at h
    split at h
    · next members =>
      simp only [Option.bind_eq_bind, Option.bind_eq_some_iff, ofParts?_eq_some_iff] at h
      obtain ⟨_, hl, _, hh, _, hk, hsized, rfl, rfl, rfl⟩ := h
      rw [Document.member?_eq_some_iff] at hl hh hk
      exact ⟨hsized, .record hl hh hk⟩
    · obtain ⟨hsized, rfl, rfl, rfl⟩ := ofParts?_eq_some_iff.mp h
      exact ⟨hsized, .list⟩
    · cases h
  · rintro ⟨hsized, hgives⟩
    have hparts := ofParts?_eq_some_iff.mpr ⟨hsized, rfl, rfl, rfl⟩
    cases hgives with
    | record hl hh hk =>
      rw [← Document.member?_eq_some_iff] at hl hh hk
      simp [ofDocument?, hl, hh, hk, hparts]
    | list => exact hparts

/-- Reading bounds from records and lists as they are keeps to the rules. -/
theorem reads_ofDocument? : Reads ofDocument? := by
  have hnone : ∀ {d : Document}, (¬∃ b : Bounds, b.Sized ∧ d.Gives b) → ofDocument? d = none := by
    intro d hnot
    rw [Option.eq_none_iff_forall_ne_some]
    exact fun b h => hnot ⟨b, ofDocument?_eq_some_iff.mp h⟩
  refine ⟨fun d b hsized hgives => ofDocument?_eq_some_iff.mpr ⟨hsized, hgives⟩,
    fun members part hpart hcount => hnone ?_, fun members d part hpart hmem htakes => hnone ?_,
    fun items hlength => hnone ?_, fun items p hp htakes => hnone ?_, fun d hrecord hlist => ?_⟩
  · rw [exists_gives_record_iff]
    intro hall
    obtain ⟨_, hnamed, -⟩ := hall part hpart
    exact hcount hnamed.2
  · rw [exists_gives_record_iff]
    intro hall
    obtain ⟨_, hnamed, htakes'⟩ := hall part hpart
    rw [hnamed.unique hmem] at htakes
    exact htakes htakes'
  · rw [exists_gives_list_iff]
    exact fun hall => hlength hall.1
  · rw [exists_gives_list_iff]
    exact fun hall => htakes (hall.2 p hp)
  · cases d with
    | record members => exact absurd rfl (hrecord members)
    | list items => exact absurd rfl (hlist items)
    | _ => rfl

/-- Writing bounds as a record keeps to the rule. -/
theorem writes_toDocument : Writes toDocument := fun _ _ => ⟨_, rfl, .refl _⟩

end Bounds

namespace Layout

section

variable {read? : Document → Option Bounds}

/-- A layout that is obtained, from bounds or from a document. -/
inductive Obtained (read? : Document → Option Bounds) : Layout → Prop where
  /-- Derived from bounds, whose highest value is one of the values. -/
  | derived {b : Bounds} {L : Layout} (hhighest : b.highest ≤ topValue)
    (hbounds : ofBounds b = .ok L) : Obtained read? L
  /-- Read from a document. -/
  | read {d : Document} {L : Layout} (hread : ofDocumentWith read? d = .ok L) : Obtained read? L

variable {b : Bounds} {d : Document} {L : Layout}

/-- A layout keeps the bounds that it is derived from. -/
theorem toBounds_of_ofBounds (hbounds : ofBounds b = .ok L) : L.toBounds = b := by
  rw [(eq_layout_of_ofBounds hbounds).1]
  rfl

variable (hread : Bounds.Reads read?)
include hread

/-- From a document that gives bounds the layout of these is read. -/
theorem ofDocument_of_gives (hsized : b.Sized) (hgives : d.Gives b) :
    ofDocumentWith read? d = (ofBounds b).mapError .rejected := by
  rw [ofDocumentWith, hread.given d b hsized hgives]

/-- From a document that gives no bounds nothing is read. -/
theorem ofDocument_of_not_gives (hnone : ¬∃ b : Bounds, b.Sized ∧ d.Gives b) :
    ofDocumentWith read? d = .error .unreadable := by
  rcases hgiven : read? d with _ | b
  · rw [ofDocumentWith, hgiven]
  · exact absurd ⟨b, hread.eq_some_iff.mp hgiven⟩ hnone

/-- A layout is read exactly if it is derived from the bounds that are given. -/
theorem ofDocument_eq_ok_iff :
    ofDocumentWith read? d = .ok L ↔ ∃ b : Bounds, b.Sized ∧ d.Gives b ∧ ofBounds b = .ok L := by
  constructor
  · intro hlayout
    by_cases hgiven : ∃ b : Bounds, b.Sized ∧ d.Gives b
    · obtain ⟨b, hsized, hgives⟩ := hgiven
      rw [ofDocument_of_gives hread hsized hgives] at hlayout
      rcases hbounds : ofBounds b with e | L'
      · rw [hbounds] at hlayout
        cases hlayout
      · rw [hbounds] at hlayout
        exact ⟨b, hsized, hgives, hbounds.trans (congrArg _ (Except.ok.inj hlayout))⟩
    · rw [ofDocument_of_not_gives hread hgiven] at hlayout
      cases hlayout
  · rintro ⟨b, hsized, hgives, hbounds⟩
    rw [ofDocument_of_gives hread hsized hgives, hbounds]
    rfl

/-- However it was obtained, a layout is derived from its own bounds, and these are of the sizes
that are read. -/
theorem Obtained.ofBounds_toBounds (hobtained : L.Obtained read?) :
    ofBounds L.toBounds = .ok L ∧ L.toBounds.Sized := by
  obtain ⟨b, hsized, hbounds⟩ : ∃ b : Bounds, b.Sized ∧ ofBounds b = .ok L := by
    cases hobtained with
    | derived hhighest hbounds =>
      exact ⟨_, Bounds.sized_of_ofBounds hbounds hhighest, hbounds⟩
    | read hlayout =>
      obtain ⟨b, hsized, -, hbounds⟩ := (ofDocument_eq_ok_iff hread).mp hlayout
      exact ⟨b, hsized, hbounds⟩
  obtain rfl := toBounds_of_ofBounds hbounds
  exact ⟨hbounds, hsized⟩

end

/-- How layouts are read from documents and written to them. -/
structure Faithful (read? : Document → Option Bounds) (write : Bounds → Document) : Prop where
  /-- A layout is read exactly from a document that gives accepted bounds, and it is the one derived
  from them. -/
  read_iff : ∀ d L, ofDocumentWith read? d = .ok L ↔
    ∃ b : Bounds, b.Sized ∧ d.Gives b ∧ ofBounds b = .ok L
  /-- If bounds that are given are not accepted, it is told why. -/
  rejected : ∀ d (b : Bounds), b.Sized → d.Gives b →
    ofDocumentWith read? d = (ofBounds b).mapError .rejected
  /-- A document that gives no bounds is unreadable. -/
  unreadable : ∀ d, (¬∃ b : Bounds, b.Sized ∧ d.Gives b) →
    ofDocumentWith read? d = .error .unreadable
  /-- However a layout was obtained, it is the one derived from its own bounds and is read back from
  what it is written to. -/
  obtained : ∀ L : Layout, L.Obtained read? →
    ofBounds L.toBounds = .ok L ∧ ofDocumentWith read? (L.toDocumentWith write) = .ok L
  /-- Bounds come back from the layout that is derived from them. -/
  bounds : ∀ b L, ofBounds b = .ok L → L.toBounds = b

/-- Whatever functions read bounds from documents and write them, layouts are read from just the
documents that give accepted bounds, and are read back from those that they are written to. -/
theorem ofDocument_faithful {read? : Document → Option Bounds} {write : Bounds → Document}
    (hread : Bounds.Reads read?) (hwrite : Bounds.Writes write) : Faithful read? write := by
  refine ⟨fun d L => ofDocument_eq_ok_iff hread, fun d b => ofDocument_of_gives hread,
    fun d => ofDocument_of_not_gives hread, fun L hobtained => ?_, fun b L => toBounds_of_ofBounds⟩
  obtain ⟨hbounds, hsized⟩ := hobtained.ofBounds_toBounds hread
  exact ⟨hbounds, (ofDocument_eq_ok_iff hread).mpr ⟨_, hsized, hwrite.gives hsized, hbounds⟩⟩

/-- Records and lists as they are, are read faithfully. A record that names a number of slots along
with its bounds does not bring that number with it, however often it names it, and a record that
names the highest value twice is not read. -/
theorem forged_faithful :
    let d : Document := .record [("counts_len", .integer 3),
      ("highest_trackable_value", .integer 1000000), ("lowest_trackable_value", .integer 1),
      ("significant_figures", .integer 2), ("counts_len", .integer 1792)]
    let twice : Document := .record [("highest_trackable_value", .integer 15),
      ("highest_trackable_value", .integer 1000000), ("lowest_trackable_value", .integer 1),
      ("significant_figures", .integer 2)]
    let L : Layout := ⟨⟨1, 1000000, 2⟩, 0, 7, 256, 128, 255, 13, 1792⟩
    Bounds.Reads Bounds.ofDocument? ∧ Bounds.Writes Bounds.toDocument ∧
      Faithful Bounds.ofDocument? Bounds.toDocument ∧ ofDocument d = .ok L ∧
      ofBounds ⟨1, 1000000, 2⟩ = .ok L ∧ ofDocument L.toDocument = .ok L ∧
      ofDocument twice = .error .unreadable := by
  intro d twice L
  have hfaithful : Faithful Bounds.ofDocument? Bounds.toDocument :=
    ofDocument_faithful Bounds.reads_ofDocument? Bounds.writes_toDocument
  have hread : ofDocument d = .ok L := by decide +kernel
  obtain ⟨hbounds, hback⟩ := hfaithful.obtained L (.read hread)
  exact ⟨Bounds.reads_ofDocument?, Bounds.writes_toDocument, hfaithful, hread, hbounds, hback,
    by decide +kernel⟩

end Layout

end DynamicRange
