import LeasedLocks.Proofs.Reading
import LeasedLocks.Wire.Message

/-!
# Reading back what was written

Everything that is sent or stored is read back as it was written, whatever texts, numbers and
trees it holds, unless it nests deeper than readers allow. Fields that have their default may be
left out at any node (`Json.Omits`): they are read as if they were there (`read_back`).
-/

namespace LeasedLocks

open Json

namespace Json

mutual

/-- The second value is the first one with some of its entries left out, at any depth, all of
them among `usual`. -/
inductive Omits (usual : List (String × Json)) : Json → Json → Prop where
  | null : Omits usual .null .null
  | bool (b : Bool) : Omits usual (.bool b) (.bool b)
  | number (n : Nat) : Omits usual (.number n) (.number n)
  | string (s : String) : Omits usual (.string s) (.string s)
  | array {js js' : List Json} : OmitsItems usual js js' → Omits usual (.array js) (.array js')
  | object {es es' : List (String × Json)} :
      OmitsEntries usual es es' → Omits usual (.object es) (.object es')

inductive OmitsItems (usual : List (String × Json)) : List Json → List Json → Prop where
  | nil : OmitsItems usual [] []
  | cons {j j' : Json} {js js' : List Json} :
      Omits usual j j' → OmitsItems usual js js' → OmitsItems usual (j :: js) (j' :: js')

inductive OmitsEntries (usual : List (String × Json)) :
    List (String × Json) → List (String × Json) → Prop where
  | nil : OmitsEntries usual [] []
  | keep {key : String} {j j' : Json} {es es' : List (String × Json)} :
      Omits usual j j' → OmitsEntries usual es es' →
        OmitsEntries usual ((key, j) :: es) ((key, j') :: es')
  | leave {e : String × Json} {es es' : List (String × Json)} :
      e ∈ usual → OmitsEntries usual es es' → OmitsEntries usual (e :: es) es'

end

variable {usual : List (String × Json)}

mutual

/-- Nothing has to be left out. -/
theorem Omits.refl (usual : List (String × Json)) : ∀ j : Json, Omits usual j j
  | .null => .null
  | .bool b => .bool b
  | .number n => .number n
  | .string s => .string s
  | .array js => .array (OmitsItems.refl usual js)
  | .object es => .object (OmitsEntries.refl usual es)

theorem OmitsItems.refl (usual : List (String × Json)) : ∀ js : List Json, OmitsItems usual js js
  | [] => .nil
  | j :: js => .cons (Omits.refl usual j) (OmitsItems.refl usual js)

theorem OmitsEntries.refl (usual : List (String × Json)) :
    ∀ es : List (String × Json), OmitsEntries usual es es
  | [] => .nil
  | (_, j) :: es => .keep (Omits.refl usual j) (OmitsEntries.refl usual es)

end

mutual

/-- Leaving out what holds nothing else makes a value no less deep. -/
theorem Omits.depth_eq (hu : ∀ e ∈ usual, e.2.depth = 0) {j j' : Json} :
    Omits usual j j' → j'.depth = j.depth
  | .null => rfl
  | .bool _ => rfl
  | .number _ => rfl
  | .string _ => rfl
  | .array h => congrArg (· + 1) (OmitsItems.depth_eq hu h)
  | .object h => congrArg (· + 1) (OmitsEntries.depth_eq hu h)

theorem OmitsItems.depth_eq (hu : ∀ e ∈ usual, e.2.depth = 0) {js js' : List Json} :
    OmitsItems usual js js' → depthOfItems js' = depthOfItems js
  | .nil => rfl
  | .cons h hs => by rw [depthOfItems, depthOfItems, Omits.depth_eq hu h, OmitsItems.depth_eq hu hs]

theorem OmitsEntries.depth_eq (hu : ∀ e ∈ usual, e.2.depth = 0) {es es' : List (String × Json)} :
    OmitsEntries usual es es' → depthOfEntries es' = depthOfEntries es
  | .nil => rfl
  | .keep h hs => by
      rw [depthOfEntries, depthOfEntries, Omits.depth_eq hu h, OmitsEntries.depth_eq hu hs]
  | .leave he hs => by
      rw [depthOfEntries, hu _ he, OmitsEntries.depth_eq hu hs, Nat.zero_max]

end

/-- A value that holds no others. -/
def IsLeaf : Json → Prop
  | array _ => False
  | object _ => False
  | _ => True

theorem Omits.eq_of_isLeaf {j j' : Json} (h : Omits usual j j') (hj : j.IsLeaf) : j' = j := by
  cases h with
  | array _ => exact hj.elim
  | object _ => exact hj.elim
  | _ => rfl

theorem Omits.reads_leaf {α : Type} {r : Reader α} {level : Nat} {j : Json} {a : α}
    (hr : Reads r level j a) (hj : j.IsLeaf) :
    ∀ j', Omits usual j j' → Reads r level j' a := by
  intro j' h
  rw [h.eq_of_isLeaf hj]
  exact hr

/-- An array is read if its items are, however they are thinned out. -/
theorem reads_array {α : Type} {r : Reader α} {level : Nat} {as : List α} {toJson : α → Json}
    {j : Json} (hj : Omits usual (.array (as.map toJson)) j)
    (h : ∀ below, level = below + 1 → ∀ a i, Omits usual (toJson a) i → Reads r below i a) :
    Reads (Reader.list level r) level j as := by
  cases hj with
  | @array _ js hjs =>
      cases level with
      | zero => exact reads_list_zero r js as
      | succ below =>
          apply Reads.list
          induction as generalizing js with
          | nil =>
              cases hjs
              exact .nil
          | cons a as ih =>
              cases hjs with
              | cons hi hmore => exact .cons (h below rfl a _ hi) (ih hmore)

/-! ## Fields that are there, and fields that may be -/

section Records

variable {α β σ : Type} {r : Reader.Record σ α} {level : Nat} {d : σ} {a : α} {j : Json}
  {es : List (String × Json)}

/-- Whichever of these entries are left out, the others complete the draft to `a`. -/
def Completes (usual : List (String × Json)) (r : Reader.Record σ α) (level : Nat) (d : σ)
    (es : List (String × Json)) (a : α) : Prop :=
  ∀ es', OmitsEntries usual es es' → ∃ d', Fills r.fields level d es' d' ∧ r.finish d' = some a

theorem Completes.nil (h : r.finish d = some a) : Completes usual r level d [] a := by
  rintro _ ⟨⟩
  exact ⟨d, .nil d, h⟩

variable {key : String} {get : σ → Option β} {set : β → σ → σ} {content : Reader β}
  {mayBeLeftOut : Bool} {x : β}

/-- A field that is never left out. -/
theorem Completes.needed (x : β) (h : Completes usual r level (set x d) es a)
    (hkey : (key, j) ∉ usual)
    (hfield : r.fields.find? (·.name == key) = some (.of key get set content mayBeLeftOut))
    (hnew : (get d).isSome = false)
    (hread : ∀ j', Omits usual j j' → Reads content level j' x) :
    Completes usual r level d ((key, j) :: es) a := by
  intro es' hes
  cases hes with
  | keep hj hmore =>
      obtain ⟨d', hfill, hfinish⟩ := h _ hmore
      exact ⟨d', .cons hfield hnew ((hread _ hj).map (set · d)) hfill, hfinish⟩
  | leave hmem _ => exact absurd hmem hkey

/-- A field that may be left out, in which case the draft does not have it either. -/
theorem Completes.omittable (x usually : β) (put : Option β → σ)
    (h : ∀ o, o.getD usually = x → Completes usual r level (put o) es a)
    (hkey : (key, j) ∈ usual → x = usually)
    (hfield : r.fields.find? (·.name == key) = some (.of key get set content mayBeLeftOut))
    (hnew : (get d).isSome = false) (hnone : put none = d) (hsome : put (some x) = set x d)
    (hread : ∀ j', Omits usual j j' → Reads content level j' x) :
    Completes usual r level d ((key, j) :: es) a := by
  intro es' hes
  cases hes with
  | keep hj hmore =>
      obtain ⟨d', hfill, hfinish⟩ := h (some x) rfl _ hmore
      rw [hsome] at hfill
      exact ⟨d', .cons hfield hnew ((hread _ hj).map (set · d)) hfill, hfinish⟩
  | leave hmem hmore =>
      obtain ⟨d', hfill, hfinish⟩ := h none (hkey hmem).symm _ hmore
      rw [hnone] at hfill
      exact ⟨d', hfill, hfinish⟩

/-- A record is read however its entries are thinned out. -/
theorem reads_record (hj : Omits usual (.object es) j)
    (h : ∀ below, level = below + 1 → Completes usual r below r.draft es a) :
    Reads (Reader.record level r) level j a := by
  cases hj with
  | object hes =>
      cases level with
      | zero => exact reads_record_zero r _ a
      | succ below =>
          obtain ⟨d, hfill, hfinish⟩ := h below rfl _ hes
          exact hfill.record hfinish

end Records

end Json

/-! ## Trees of records -/

section Trees

variable {α σ : Type} {usual : List (String × Json)} {toJson : Tree α → Json}
  {reader : Nat → Reader (Tree α)}
  {recordOf : Nat → Reader (List (Tree α)) → Reader.Record σ (Tree α)}

/-- A reader of records that have an array of such records among their fields. Each takes two
levels, one for the object and one for the array. -/
structure ReadsNodes (usual : List (String × Json)) (toJson : Tree α → Json)
    (reader : Nat → Reader (Tree α))
    (recordOf : Nat → Reader (List (Tree α)) → Reader.Record σ (Tree α)) : Prop where
  zero : reader 0 = Reader.record 0 (recordOf 0 Reader.refuse)
  one : reader 1 = Reader.record 1 (recordOf 0 (Reader.list 0 Reader.refuse))
  next : ∀ level, reader (level + 2) =
    Reader.record (level + 2) (recordOf (level + 1) (Reader.list (level + 1) (reader level)))
  object : ∀ t, ∃ es, toJson t = .object es
  /-- A node is read if the array of its links is. -/
  node : ∀ (a : α) (ts : List (Tree α)) (level : Nat) (linked : Reader (List (Tree α))) (j : Json),
    Omits usual (toJson (.node a ts)) j →
      (∀ js, OmitsItems usual (ts.map toJson) js → Reads linked level (.array js) ts) →
        Reads (Reader.record (level + 1) (recordOf level linked)) (level + 1) j (.node a ts)

mutual

theorem ReadsNodes.reads (h : ReadsNodes usual toJson reader recordOf) :
    ∀ (t : Tree α) (level : Nat) {j : Json}, Omits usual (toJson t) j →
      Reads (reader level) level j t
  | .node a ts, level, j, hj => by
      match level with
      | 0 =>
          obtain ⟨es, hes⟩ := h.object (.node a ts)
          rw [hes] at hj
          rw [h.zero]
          exact reads_record hj nofun
      | 1 =>
          rw [h.one]
          exact h.node a ts 0 _ j hj fun js _ => reads_list_zero _ js ts
      | level + 2 =>
          rw [h.next]
          exact h.node a ts (level + 1) _ j hj fun js hjs => Reads.list (h.readsAll ts level hjs)

theorem ReadsNodes.readsAll (h : ReadsNodes usual toJson reader recordOf) :
    ∀ (ts : List (Tree α)) (level : Nat) {js : List Json}, OmitsItems usual (ts.map toJson) js →
      List.Forall₂ (Reads (reader level) level) js ts
  | [], _, _, hjs => by
      cases hjs
      exact .nil
  | t :: ts, level, _, hjs => by
      cases hjs with
      | cons hj hmore => exact .cons (h.reads t level hj) (h.readsAll ts level hmore)

end

/-- The entry of the links of a node; no links have none. -/
def linkedEntries : List Json → List (String × Json)
  | [] => []
  | js => [("linked", .array js)]

end Trees

/-! ## Requests -/

/-- Different priorities have different words. -/
theorem Priority.toJson_injective {p q : Priority} (h : p.toJson = q.toJson) : p = q := by
  have hword := congrArg Priority.ofWord? (Json.string.inj h)
  rw [Priority.ofWord?_word, Priority.ofWord?_word] at hword
  exact Option.some.inj hword

theorem Priority.reads (level level' : Nat) (p : Priority) :
    Reads (Priority.reader level) level' p.toJson p :=
  reads_choice level level' (Priority.ofWord?_word p)

namespace Request

/-- What is meant where fields of a request are left out. -/
def usual : List (String × Json) :=
  [("description", .string ""), ("requester", .string ""), ("priority", Priority.toJson .medium)]

variable {a : Ask} {ts : List Request} {j : Json} {level : Nat} {linked : Reader (List Request)}

/-- A node is read if the array of its links is. -/
theorem reads_node (h : Omits usual (toJson (.node a ts)) j)
    (hlinked : ∀ js, OmitsItems usual (ts.map toJson) js → Reads linked level (.array js) ts) :
    Reads (Reader.record (level + 1) (recordOf level linked)) (level + 1) j (.node a ts) := by
  rw [toJson, toJsonAll_eq_map] at h
  apply reads_record h
  rintro _ ⟨⟩
  simp only [List.cons_append, List.nil_append]
  apply Completes.needed a.objectId _ (by simp [usual]) rfl rfl
    (Omits.reads_leaf (reads_string level a.objectId) trivial)
  apply Completes.omittable a.description "" (fun description : Option String =>
      ({ objectId := some a.objectId, description } : Draft))
    _ (by simp [usual]) rfl rfl rfl rfl
    (Omits.reads_leaf (reads_string level a.description) trivial)
  intro description hdescription
  apply Completes.omittable a.requester "" (fun requester : Option String =>
      ({ objectId := some a.objectId, description, requester } : Draft))
    _ (by simp [usual]) rfl rfl rfl rfl
    (Omits.reads_leaf (reads_string level a.requester) trivial)
  intro requester hrequester
  apply Completes.omittable a.priority .medium (fun priority : Option Priority =>
      ({ objectId := some a.objectId, description, requester, priority } : Draft))
    _ (fun hmem => Priority.toJson_injective (by simpa [usual] using hmem)) rfl rfl rfl rfl
    (Omits.reads_leaf (a.priority.reads level level) trivial)
  intro priority hpriority
  -- no lease and no links have no entries at all
  have hlast (lease : Option (Option Millis)) (hlease : lease.getD none = a.lease) :
      Completes usual (recordOf level linked) level
        { objectId := some a.objectId, description, requester, priority, lease }
        (linkedEntries (ts.map toJson)) (.node a ts) := by
    cases ts with
    | nil =>
        apply Completes.nil
        simp [recordOf, Draft.finish, hdescription, hrequester, hpriority, hlease]
    | cons t ts =>
        apply Completes.needed (t :: ts) _ (by simp [usual]) rfl rfl
        · intro j hj
          cases hj with
          | array hjs => exact hlinked _ hjs
        · apply Completes.nil
          simp [recordOf, Draft.finish, hdescription, hrequester, hpriority, hlease]
  cases hlease : a.lease with
  | none => exact hlast none hlease.symm
  | some lease =>
      apply Completes.needed (some lease) (hlast (some (some lease)) hlease.symm)
        (by simp [usual]) rfl rfl
      exact Omits.reads_leaf ((reads_word level lease).optional (by simp)) trivial

theorem readsNodes : ReadsNodes usual toJson reader recordOf where
  zero := rfl
  one := rfl
  next _ := rfl
  object := by
    rintro ⟨a, ts⟩
    exact ⟨_, toJson.eq_1 a ts⟩
  node _ _ _ _ _ h hlinked := reads_node h hlinked

end Request

/-! ## Replies -/

namespace Reply

variable {a : Answer} {ts : List Reply} {j : Json} {level : Nat} {linked : Reader (List Reply)}

/-- A node is read if the array of its links is. -/
theorem reads_node (h : Omits [] (toJson (.node a ts)) j)
    (hlinked : ∀ js, OmitsItems [] (ts.map toJson) js → Reads linked level (.array js) ts) :
    Reads (Reader.record (level + 1) (recordOf linked)) (level + 1) j (.node a ts) := by
  rw [toJson, toJsonAll_eq_map] at h
  apply reads_record h
  rintro _ ⟨⟩
  simp only [List.cons_append, List.nil_append]
  apply Completes.needed a.objectId _ List.not_mem_nil rfl rfl
    (Omits.reads_leaf (reads_string level a.objectId) trivial)
  apply Completes.needed a.holder _ List.not_mem_nil rfl rfl
    (Omits.reads_leaf (reads_string level a.holder) trivial)
  apply Completes.needed a.isAvailable _ List.not_mem_nil rfl rfl
    (Omits.reads_leaf (reads_bool level a.isAvailable) trivial)
  apply Completes.needed a.isGranted _ List.not_mem_nil rfl rfl
    (Omits.reads_leaf (reads_bool level a.isGranted) trivial)
  have hlast (autoUnlockAt : Option (Option Millis))
      (hend : autoUnlockAt.getD none = a.autoUnlockAt) :
      Completes [] (recordOf linked) level
        { objectId := some a.objectId
          holder := some a.holder
          isAvailable := some a.isAvailable
          isGranted := some a.isGranted
          autoUnlockAt }
        (linkedEntries (ts.map toJson)) (.node a ts) := by
    cases ts with
    | nil =>
        apply Completes.nil
        simp [recordOf, Draft.finish, hend]
    | cons t ts =>
        apply Completes.needed (t :: ts) _ List.not_mem_nil rfl rfl
        · intro j hj
          cases hj with
          | array hjs => exact hlinked _ hjs
        · apply Completes.nil
          simp [recordOf, Draft.finish, hend]
  cases hend : a.autoUnlockAt with
  | none => exact hlast none hend.symm
  | some t =>
      apply Completes.needed (some t) (hlast (some (some t)) hend.symm) List.not_mem_nil rfl rfl
      exact Omits.reads_leaf ((reads_word level t).optional (by simp)) trivial

theorem readsNodes : ReadsNodes [] toJson reader fun _ => recordOf where
  zero := rfl
  one := rfl
  next _ := rfl
  object := by
    rintro ⟨a, ts⟩
    exact ⟨_, toJson.eq_1 a ts⟩
  node _ _ _ _ _ h hlinked := reads_node h hlinked

end Reply

/-! ## Releases, records and states -/

namespace Release

/-- What is meant where fields of a release are left out. -/
def usual : List (String × Json) := [("release_linked", .bool false)]

theorem reads (x : Release) (level : Nat) {j : Json} (h : Omits usual x.toJson j) :
    Reads (reader level) level j x := by
  apply reads_record h
  rintro below -
  apply Completes.needed x.objectId _ (by simp [usual]) rfl rfl
    (Omits.reads_leaf (reads_string below x.objectId) trivial)
  apply Completes.omittable x.cascade false (fun cascade : Option Bool =>
      ({ objectId := some x.objectId, cascade } : Draft))
    _ (by simp [usual]) rfl rfl rfl rfl
    (Omits.reads_leaf (reads_bool below x.cascade) trivial)
  intro cascade hcascade
  apply Completes.nil
  simp [hcascade]

end Release

namespace Holding

theorem reads (x : Holding) (level : Nat) {j : Json} (h : Omits [] x.toJson j) :
    Reads (reader level) level j x := by
  apply reads_record h
  rintro below rfl
  apply Completes.needed x.objectId _ List.not_mem_nil rfl rfl
    (Omits.reads_leaf (reads_string below x.objectId) trivial)
  apply Completes.needed x.description _ List.not_mem_nil rfl rfl
    (Omits.reads_leaf (reads_string below x.description) trivial)
  apply Completes.needed x.holder _ List.not_mem_nil rfl rfl
    (Omits.reads_leaf (reads_string below x.holder) trivial)
  apply Completes.needed x.priority _ List.not_mem_nil rfl rfl
    (Omits.reads_leaf (x.priority.reads below below) trivial)
  apply Completes.needed x.acquiredAt _ List.not_mem_nil rfl rfl
    (Omits.reads_leaf (reads_word below x.acquiredAt) trivial)
  apply Completes.needed x.autoUnlockAt _ List.not_mem_nil rfl rfl
    (Omits.reads_leaf (reads_word below x.autoUnlockAt) trivial)
  apply Completes.needed x.linkedIds (.nil rfl) List.not_mem_nil rfl rfl
  intro j' hj
  apply reads_array hj
  intro deeper _ id
  exact Omits.reads_leaf (reads_string deeper id) trivial

end Holding

namespace Status

/-- What is meant where fields of a state are left out. -/
def usual : List (String × Json) := [("auto_unlock_at", .null)]

theorem reads (x : Status) (level : Nat) {j : Json} (h : Omits usual x.toJson j) :
    Reads (reader level) level j x := by
  apply reads_record h
  rintro below rfl
  apply Completes.needed x.objectId _ (by simp [usual]) rfl rfl
    (Omits.reads_leaf (reads_string below x.objectId) trivial)
  apply Completes.needed x.description _ (by simp [usual]) rfl rfl
    (Omits.reads_leaf (reads_string below x.description) trivial)
  apply Completes.needed x.holder _ (by simp [usual]) rfl rfl
    (Omits.reads_leaf (reads_string below x.holder) trivial)
  apply Completes.needed x.isGranted _ (by simp [usual]) rfl rfl
    (Omits.reads_leaf (reads_bool below x.isGranted) trivial)
  apply Completes.omittable x.autoUnlockAt none (fun autoUnlockAt : Option (Option Millis) =>
      ({ objectId := some x.objectId
         description := some x.description
         holder := some x.holder
         isGranted := some x.isGranted
         autoUnlockAt } : Draft)) _ _ rfl rfl rfl rfl
  · cases x.autoUnlockAt with
    | none => exact Omits.reads_leaf (reads_null Reader.word below) trivial
    | some t => exact Omits.reads_leaf ((reads_word below t).optional nofun) trivial
  · intro autoUnlockAt hend
    apply Completes.needed x.priority _ (by simp [usual]) rfl rfl
      (Omits.reads_leaf (x.priority.reads below below) trivial)
    apply Completes.nil
    simp [Draft.finish, hend]
  · cases x.autoUnlockAt with
    | none => exact fun _ => rfl
    | some t => simp [usual]

end Status

/-! ## Messages -/

namespace Message

variable {α : Type} {usual : List (String × Json)} {j : Json} {level : Nat}

/-- A message is read if its content is. -/
theorem reads {name : String} {content : Nat → Reader α} {a : α} {i : Json}
    (hname : (name, i) ∉ usual)
    (hcontent : ∀ level i', Omits usual i i' → Reads (content level) level i' a)
    (h : Omits usual (.object [(name, i)]) j) : Reads (reader name content level) level j a := by
  apply reads_record h
  rintro below rfl
  have hfield : [Reader.Field.of name id (fun x _ => some x) (content below)].find?
      (·.name == name) = some (.of name id (fun x _ => some x) (content below)) :=
    List.find?_cons_of_pos (beq_self_eq_true name)
  exact Completes.needed a (.nil rfl) hname hfield rfl (hcontent below)

/-- A message that holds a list is read if the items of the list are. -/
theorem reads_list {name : String} {item : Nat → Reader α} {toJson : α → Json}
    (hname : ∀ i, (name, i) ∉ usual)
    (hitem : ∀ a level {i : Json}, Omits usual (toJson a) i → Reads (item level) level i a)
    (as : List α) (level : Nat) {j : Json}
    (h : Omits usual (.object [(name, .array (as.map toJson))]) j) :
    Reads (reader name (listReader item) level) level j as := by
  apply reads (hname _) _ h
  intro level i hi
  apply reads_array hi
  rintro below rfl a _
  exact hitem a below

end Message

/-! ## Whole texts -/

/-- Whatever is written in one line is read back, also where entries among `usual` are left
out. What nests too deep is no JSON to the reader. -/
structure RoundTrips {α : Type} (reader : Nat → Reader α) (toJson : α → Json)
    (usual : List (String × Json)) : Prop where
  whole : ∀ a, (toJson a).depth ≤ maxDepth →
    Json.parse (reader maxDepth) (toJson a).compact = .ok a
  thinned : ∀ a j, Omits usual (toJson a) j → (toJson a).depth ≤ maxDepth →
    Json.parse (reader maxDepth) j.compact = .ok a
  refused : ∀ a j, Omits usual (toJson a) j → maxDepth < (toJson a).depth →
    Json.parse (reader maxDepth) j.compact = .error .malformed

theorem roundTrips_of_reads {α : Type} {reader : Nat → Reader α} {toJson : α → Json}
    {usual : List (String × Json)} (husual : ∀ e ∈ usual, e.2.depth = 0)
    (h : ∀ a level {j : Json}, Omits usual (toJson a) j → Reads (reader level) level j a) :
    RoundTrips reader toJson usual := by
  have hparse (a : α) (j : Json) (hj : Omits usual (toJson a) j) :
      Within maxDepth (toJson a).depth (Json.parse (reader maxDepth) j.compact) a :=
    hj.depth_eq husual ▸ (h a maxDepth hj).parse
  constructor
  · exact fun a => (hparse a _ (Omits.refl usual _)).fits
  · exact fun a j hj => (hparse a j hj).fits
  · exact fun a j hj => (hparse a j hj).deep

/-- All that goes over the wire or is stored is read back. -/
theorem read_back :
    RoundTrips Request.reader Request.toJson Request.usual ∧
    RoundTrips Reply.reader Reply.toJson [] ∧
    RoundTrips Release.reader Release.toJson Release.usual ∧
    RoundTrips Holding.reader Holding.toJson [] ∧
    RoundTrips Status.reader Status.toJson Status.usual ∧
    RoundTrips Message.requests Message.requestsToJson Request.usual ∧
    RoundTrips Message.replies Message.repliesToJson [] ∧
    RoundTrips Message.releases Message.releasesToJson Release.usual ∧
    RoundTrips Message.unlocked Message.unlockedToJson [] ∧
    RoundTrips Message.failure Message.failureToJson [] := by
  have hrequest : ∀ e ∈ Request.usual, e.2.depth = 0 := by
    simp [Request.usual, Priority.toJson, Json.depth]
  have hrelease : ∀ e ∈ Release.usual, e.2.depth = 0 := by
    simp [Release.usual, Json.depth]
  have hstatus : ∀ e ∈ Status.usual, e.2.depth = 0 := by
    simp [Status.usual, Json.depth]
  have hnone : ∀ e ∈ ([] : List (String × Json)), e.2.depth = 0 := nofun
  refine ⟨?_, ?_, ?_, ?_, ?_, ?_, ?_, ?_, ?_, ?_⟩
  · exact roundTrips_of_reads hrequest Request.readsNodes.reads
  · exact roundTrips_of_reads hnone Reply.readsNodes.reads
  · exact roundTrips_of_reads hrelease Release.reads
  · exact roundTrips_of_reads hnone Holding.reads
  · exact roundTrips_of_reads hstatus Status.reads
  · exact roundTrips_of_reads hrequest
      (Message.reads_list (by simp [Request.usual]) Request.readsNodes.reads)
  · exact roundTrips_of_reads hnone
      (Message.reads_list (fun _ => List.not_mem_nil) Reply.readsNodes.reads)
  · exact roundTrips_of_reads hrelease
      (Message.reads_list (by simp [Release.usual]) Release.reads)
  · exact roundTrips_of_reads hnone (Message.reads_list (fun _ => List.not_mem_nil)
      fun id level => Omits.reads_leaf (reads_string level id) trivial _)
  · apply roundTrips_of_reads hnone
    intro message level j
    apply Message.reads List.not_mem_nil
    exact fun level => Omits.reads_leaf (reads_string level message) trivial

/-- Only the identifier has to be there. -/
example : (Json.parse (Request.reader maxDepth)
    (Json.object [("object_id", .string "report")]).compact).toOption.map Tree.label =
      some { objectId := "report" } := by
  decide +kernel

end LeasedLocks
