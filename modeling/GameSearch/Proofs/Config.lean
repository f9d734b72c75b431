/-
  GameSearch.Proofs.Config

  Settings are checked once and read as they were written.  On the way to an engine the number of
  iterations and the weight are checked again by functions that do not know of the first check;
  they never find anything new.  And the object that is written for settings is read back, in
  whatever order its fields stand, with any other keys between them and without the fields that
  hold defaults.

    * `CheckedOnce`      — the checks come to the same verdict
    * `Variant`          — the objects that say the same about the settings
    * `Covers`           — what all variants have in common
    * `only`             — the settings as they are after some keys were read
    * `Covers.ofText_eq` — every variant is read as the settings
-/
import GameSearch.Proofs.Json.Records
import GameSearch.Proofs.Mcts.Operations

namespace GameSearch.Config

open Json Mcts

variable {c : Config} {ms : List (String × List Char)}

-- ============================================================================
-- Checks
-- ============================================================================

/-- The number of iterations is refused where the first check refuses it. -/
theorem iterationCount_eq (c : Config) :
    c.iterationCount =
      if c.iterations < 1 then .error (.iterationsBelowOne c.iterations)
      else .ok c.iterations.toNat := by
  unfold iterationCount
  cases c.iterations with
  | negSucc n =>
    rw [if_pos (by omega)]
    rfl
  | ofNat n =>
    cases n with
    | zero => rfl
    | succ n =>
      have hone : ¬ ((n + 1 : Nat) : Int) < 1 := by omega
      exact (if_neg hone).symm

/-- With at least one iteration only the weight decides whether an engine is made. -/
theorem create_toNat (t : Tree) (h : ¬ c.iterations < 1) :
    Engine.create t c.iterations.toNat c.weight =
      (checkWeight c.weight).map fun _ => ⟨t, c.iterations.toNat, c.weight⟩ := by
  rw [Engine.create, if_neg (by omega)]

/-- The later checks on their own come to the verdict of the first one. -/
theorem create_iterationCount (t : Tree) (c : Config) :
    (match c.iterationCount with
      | .error fault => .error fault
      | .ok n => Engine.create t n c.weight) =
    c.validate.map fun _ => ⟨t, c.iterations.toNat, c.weight⟩ := by
  rw [iterationCount_eq, validate]
  split_ifs with hbelow
  · rfl
  · exact create_toNat t hbelow

/-- The first check decides whether an engine is made, and the settings which one. -/
theorem ofConfig_eq (t : Tree) (c : Config) :
    Engine.ofConfig t c = c.validate.map fun _ => ⟨t, c.iterations.toNat, c.weight⟩ := by
  have hlater := create_iterationCount t c
  unfold Engine.ofConfig
  cases hvalid : c.validate with
  | error fault => rfl
  | ok u =>
    rw [hvalid] at hlater
    exact hlater

/-- The checks that settings go through on the way to an engine come to the same verdict. -/
structure CheckedOnce (t : Tree) (c : Config) : Prop where
  /-- An engine is refused for the fault that the first check finds. -/
  refused : ∀ fault, Engine.ofConfig t c = .error fault ↔ c.validate = .error fault
  /-- Without the first check the later ones would come to the same. -/
  later : Engine.ofConfig t c =
    match c.iterationCount with
    | .error fault => .error fault
    | .ok n => Engine.create t n c.weight
  /-- After the first check none of the later ones refuses anything, and the engine has the
      iterations and the weight of the settings. -/
  passed : c.validate = .ok () → ∃ e : Engine,
    e.tree = t ∧ (e.iterations : Int) = c.iterations ∧ e.weight = c.weight ∧
      c.iterationCount = .ok e.iterations ∧ Engine.create t e.iterations c.weight = .ok e ∧
      Engine.ofConfig t c = .ok e

theorem checkedOnce (t : Tree) (c : Config) : CheckedOnce t c := by
  have hengine := ofConfig_eq t c
  constructor
  case refused =>
    intro fault
    rw [hengine]
    cases c.validate with
    | error found =>
      constructor
      · exact fun h => congrArg Except.error (Except.error.inj h)
      · exact fun h => congrArg Except.error (Except.error.inj h)
    | ok u => exact ⟨nofun, nofun⟩
  case later => rw [hengine, create_iterationCount]
  case passed =>
    intro hvalid
    rw [hvalid] at hengine
    rw [validate] at hvalid
    split_ifs at hvalid with hbelow
    refine ⟨⟨t, c.iterations.toNat, c.weight⟩, rfl, ?_, rfl, ?_, ?_, hengine⟩
    · dsimp only
      omega
    · rw [iterationCount_eq, if_neg hbelow]
    · rw [create_toNat t hbelow, hvalid]
      rfl

-- ============================================================================
-- Variants of the written object
-- ============================================================================

/-- The numbers have 64 bits, those of the iterations with a sign. -/
structure Fits (c : Config) : Prop where
  iterations : -2 ^ 63 ≤ c.iterations ∧ c.iterations < 2 ^ 63
  seed : ∀ seed ∈ c.seed, seed < 2 ^ 64

/-- The fields of the object that is written for settings. -/
def members (c : Config) : List (String × Json) :=
  match c.toJson with
  | .object fields => fields
  | _ => []

/-- The keys of the settings. -/
def keys : List String := fields.map (·.key)

/-- The objects that say the same about the settings as the one that is written for them. -/
inductive Variant (c : Config) : List (String × List Char) → Prop where
  | written : Variant c (c.members.map spelled)
  /-- The fields may be in any order. -/
  | permute {ms ms' : List (String × List Char)} (h : Variant c ms) (hperm : ms'.Perm ms) :
      Variant c ms'
  /-- A key that names no setting may have any value. -/
  | insert {ms : List (String × List Char)} {key : String} {cs : List Char} (h : Variant c ms)
      (hkey : key ∉ keys) (hvalue : Grammar .value cs) : Variant c ((key, cs) :: ms)
  /-- A setting that has its default may be left out. -/
  | drop {ms : List (String × List Char)} {f : String × Json} (h : Variant c (spelled f :: ms))
      (hmember : f ∈ c.members) (hdefault : f ∈ standard.members) : Variant c ms

/-- The value of a seed, null if there is none. -/
def seedValue : Option Nat → Json
  | some seed => .integer seed
  | none => .null

theorem members_eq (c : Config) :
    c.members = [("pruning", .bool c.pruning), ("mcts_iterations", .integer c.iterations),
      ("exploration_weight", .ofFloat c.weight), ("seed", seedValue c.seed)] := by
  obtain ⟨pruning, iterations, weight, seed⟩ := c
  cases seed <;> rfl

theorem text_toJson (c : Config) :
    c.toJson.text = String.ofList (objectChars (c.members.map spelled)) :=
  congrArg String.ofList (chars_object c.members)

theorem nodup_keys : keys.Nodup := by decide

theorem mem_keys {f : String × Json} (hf : f ∈ c.members) : f.1 ∈ keys :=
  List.mem_map_of_mem hf

/-- The keys of settings in an object. -/
def known (ms : List (String × List Char)) : List String := (ms.map Prod.fst).filter (· ∈ keys)

theorem known_cons_of_mem {m : String × List Char} (h : m.1 ∈ keys) :
    known (m :: ms) = m.1 :: known ms :=
  List.filter_cons_of_pos (by simpa using h)

theorem known_cons_of_notMem {m : String × List Char} (h : m.1 ∉ keys) :
    known (m :: ms) = known ms :=
  List.filter_cons_of_neg (by simpa using h)

/-- A field that is written for the settings, or names none of them. -/
def Admits (c : Config) (m : String × List Char) : Prop :=
  (∃ f ∈ c.members, spelled f = m) ∨ m.1 ∉ keys ∧ Grammar .value m.2

/-- An object gives each setting at most once, as it is written, and those that it does not give
    have their defaults. -/
structure Covers (c : Config) (ms : List (String × List Char)) : Prop where
  each : ∀ m ∈ ms, c.Admits m
  once : (known ms).Nodup
  rest : ∀ f ∈ c.members, f.1 ∉ known ms → f ∈ standard.members

namespace Covers

theorem written (c : Config) : Covers c (c.members.map spelled) := by
  have hknown : known (c.members.map spelled) = keys := rfl
  constructor
  case each =>
    intro m hm
    exact .inl (List.mem_map.1 hm)
  case once =>
    rw [hknown]
    exact nodup_keys
  case rest =>
    intro f hf hmissing
    rw [hknown] at hmissing
    exact absurd (mem_keys hf) hmissing

theorem permute {ms' : List (String × List Char)} (h : Covers c ms) (hperm : ms'.Perm ms) :
    Covers c ms' := by
  have hknown : (known ms').Perm (known ms) := (hperm.map _).filter _
  constructor
  case each => exact fun m hm => h.each m (hperm.mem_iff.1 hm)
  case once => exact hknown.nodup_iff.2 h.once
  case rest => exact fun f hf hmissing => h.rest f hf (mt hknown.mem_iff.2 hmissing)

theorem insert {key : String} {cs : List Char} (h : Covers c ms) (hkey : key ∉ keys)
    (hvalue : Grammar .value cs) : Covers c ((key, cs) :: ms) := by
  have hknown : known ((key, cs) :: ms) = known ms := known_cons_of_notMem hkey
  constructor
  case each =>
    exact List.forall_mem_cons.2 ⟨.inr ⟨hkey, hvalue⟩, h.each⟩
  case once =>
    rw [hknown]
    exact h.once
  case rest =>
    rw [hknown]
    exact h.rest

theorem drop {f : String × Json} (h : Covers c (spelled f :: ms)) (hmember : f ∈ c.members)
    (hdefault : f ∈ standard.members) : Covers c ms := by
  have hknown : known (spelled f :: ms) = f.1 :: known ms := known_cons_of_mem (mem_keys hmember)
  have honce := h.once
  rw [hknown] at honce
  constructor
  case each => exact fun m hm => h.each m (List.mem_cons_of_mem _ hm)
  case once => exact (List.nodup_cons.1 honce).2
  case rest =>
    intro g hg hmissing
    by_cases hkey : g.1 = f.1
    · -- only one member has this key
      have hnodup : (c.members.map Prod.fst).Nodup := nodup_keys
      rw [List.inj_on_of_nodup_map hnodup hg hmember hkey]
      exact hdefault
    · refine h.rest g hg ?_
      rw [hknown]
      exact List.not_mem_cons_of_ne_of_not_mem hkey hmissing

end Covers

theorem Variant.covers (h : Variant c ms) : Covers c ms := by
  induction h with
  | written => exact Covers.written c
  | permute _ hperm ih => exact ih.permute hperm
  | insert _ hkey hvalue ih => exact ih.insert hkey hvalue
  | drop _ hmember hdefault ih => exact ih.drop hmember hdefault

-- ============================================================================
-- Reading
-- ============================================================================

/-- The settings under some keys, and the standard ones otherwise. -/
def only (ks : List String) (c : Config) : Config where
  pruning := if "pruning" ∈ ks then c.pruning else standard.pruning
  iterations := if "mcts_iterations" ∈ ks then c.iterations else standard.iterations
  weight := if "exploration_weight" ∈ ks then c.weight else standard.weight
  seed := if "seed" ∈ ks then c.seed else standard.seed

/-- Nothing is lost if all other settings have their defaults. -/
theorem only_eq {ks : List String} (hfinite : c.weight.isFinite = true)
    (h : ∀ f ∈ c.members, f.1 ∉ ks → f ∈ standard.members) : c.only ks = c := by
  have hpruning : "pruning" ∉ ks → standard.pruning = c.pruning := by
    intro hk
    have hmem := h ("pruning", .bool c.pruning) (by simp [members_eq]) hk
    simpa [members_eq, eq_comm] using hmem
  have hiterations : "mcts_iterations" ∉ ks → standard.iterations = c.iterations := by
    intro hk
    have hmem := h ("mcts_iterations", .integer c.iterations) (by simp [members_eq]) hk
    simpa [members_eq, eq_comm] using hmem
  have hweight : "exploration_weight" ∉ ks → standard.weight = c.weight := by
    intro hk
    have hmem := h ("exploration_weight", .ofFloat c.weight) (by simp [members_eq]) hk
    have hdefault : standard.weight.isFinite = true := by decide
    simpa [members_eq, ofFloat, hfinite, hdefault, eq_comm] using hmem
  have hseed : "seed" ∉ ks → standard.seed = c.seed := by
    intro hk
    have hmem := h ("seed", seedValue c.seed) (by simp [members_eq]) hk
    cases hseed : c.seed with
    | none => rfl
    | some seed => simp [members_eq, hseed, seedValue, standard] at hmem
  obtain ⟨pruning, iterations, weight, seed⟩ := c
  unfold only
  congr 1
  · exact ite_eq_left_iff.2 hpruning
  · exact ite_eq_left_iff.2 hiterations
  · exact ite_eq_left_iff.2 hweight
  · exact ite_eq_left_iff.2 hseed

/-- Settings whose text gives the numbers back. -/
structure Readable (c : Config) : Prop extends Fits c where
  weight : ReadsAs readFloat (Json.ofFloat c.weight).chars c.weight

theorem readsAs_seed {seed : Option Nat} (h : ∀ n ∈ seed, n < 2 ^ 64) :
    ReadsAs (readNullable readNat64) (seedValue seed).chars seed := by
  cases seed with
  | none => exact readsAs_null _
  | some n =>
    refine (readsAs_nat64 (h n rfl)).nullable_of_numeral ?_
    rw [chars]
    exact numeral_integerText n

/-- A field that reads a value and stores it. -/
theorem exists_field_of {α : Type} {key : String} {cs : List Char} {value : Reader α} {x : α}
    {set : Config → α → Config} {state next : Config}
    (hfind : fields.find? (·.key == key) = some (.of key value set)) (hread : ReadsAs value cs x)
    (hset : next = set state x) :
    ∃ field, fields.find? (·.key == key) = some field ∧ ReadsAs (field.read state) cs next := by
  subst hset
  exact ⟨_, hfind, hread.field key set state⟩

/-- A field is read into the settings. -/
theorem exists_field (hc : Readable c) {f : String × Json} (hf : f ∈ c.members)
    (ks : List String) :
    ∃ field, fields.find? (·.key == f.1) = some field ∧
      ReadsAs (field.read (c.only ks)) f.2.chars (c.only (f.1 :: ks)) := by
  rw [members_eq] at hf
  simp only [List.mem_cons, List.not_mem_nil, or_false] at hf
  rcases hf with rfl | rfl | rfl | rfl
  · exact exists_field_of rfl (readsAs_bool c.pruning) (by simp [only])
  · exact exists_field_of rfl (readsAs_int64 hc.iterations.1 hc.iterations.2) (by simp [only])
  · exact exists_field_of rfl hc.weight (by simp [only])
  · exact exists_field_of rfl (readsAs_seed hc.seed) (by simp [only])

/-- The fields of an object that covers the settings are read one after the other. -/
theorem readsRecord_only (hc : Readable c) {ks : List String}
    (heach : ∀ m ∈ ms, c.Admits m) (honce : (known ms).Nodup) (hnew : ∀ k ∈ known ms, k ∉ ks) :
    ReadsRecord fields (c.only ks) ks ms (c.only ((known ms).reverse ++ ks)) := by
  -- what was read so far is told by the keys met so far
  induction ms generalizing ks with
  | nil => exact .nil _ _
  | cons m ms ih =>
    obtain ⟨hm, hms⟩ := List.forall_mem_cons.1 heach
    rcases hm with ⟨f, hf, rfl⟩ | ⟨hkey, hvalue⟩
    · obtain ⟨field, hfind, hread⟩ := exists_field hc hf ks
      rw [known_cons_of_mem (mem_keys hf)] at honce hnew ⊢
      obtain ⟨hfirst, honce⟩ := List.nodup_cons.1 honce
      obtain ⟨hunseen, hnew⟩ := List.forall_mem_cons.1 hnew
      rw [List.reverse_cons, List.append_assoc, List.singleton_append]
      refine .known hfind hunseen hread (ih hms honce fun k hk => ?_)
      exact List.not_mem_cons_of_ne_of_not_mem (fun heq => hfirst (heq ▸ hk)) (hnew k hk)
    · have hfind : fields.find? (·.key == m.1) = none := by
        rw [List.find?_eq_none]
        intro field hfield heq
        exact hkey (beq_iff_eq.1 heq ▸ List.mem_map_of_mem hfield)
      rw [known_cons_of_notMem hkey] at honce hnew ⊢
      exact .unknown hfind hvalue (ih hms honce hnew)

/-- An object that covers the settings is read as them. -/
theorem Covers.ofText_eq (h : Covers c ms) (hc : Readable c)
    (hfinite : c.weight.isFinite = true) :
    ofText (String.ofList (objectChars ms)) = .ok c := by
  have hnew : ∀ k ∈ known ms, k ∉ ([] : List String) := fun k _ => List.not_mem_nil
  have hrecord := readsRecord_only hc h.each h.once hnew
  have hall : c.only ((known ms).reverse ++ []) = c := by
    refine only_eq hfinite fun f hf hmissing => h.rest f hf fun hk => hmissing ?_
    rw [List.append_nil, List.mem_reverse]
    exact hk
  rw [hall] at hrecord
  rw [ofText, bytesOfText_ofList]
  exact (readsAs_objectChars (by decide) hrecord).readAll

/-- The checks of settings agree, whatever the settings and the tree.  And settings with a finite
    weight whose text gives it back are read as they were written, also with the fields in another
    order, with other keys between them and without the fields that hold defaults. -/
theorem checks_agree_and_reads_back (c : Config) :
    (∀ t, CheckedOnce t c) ∧
      (c.Fits → c.weight.isFinite = true →
        readAll readFloat (bytesOfText (Json.ofFloat c.weight).text) = .ok c.weight →
        ofText c.toJson.text = .ok c ∧
          ∀ ms, Variant c ms → ofText (String.ofList (objectChars ms)) = .ok c) := by
  refine ⟨fun t => checkedOnce t c, fun hfits hfinite hback => ?_⟩
  have hc : Readable c := ⟨hfits, readsAs_ofFloat hfinite hback⟩
  constructor
  · rw [text_toJson]
    exact (Covers.written c).ofText_eq hc hfinite
  · exact fun ms h => h.covers.ofText_eq hc hfinite

/-- Numbers at the ends of their ranges, and a weight that is written with an exponent. -/
def extreme : Config := ⟨false, -9223372036854775808, -1.4e-7, some 18446744073709551615⟩

/-- A list of a number that is too large for a double and half of a surrogate pair. -/
def unreadable : List Char :=
  ['[', ' ', '1', 'e', '9', '9', '9', ',', '"', '\\', 'u', 'd', '8', '0', '0', '"', ']']

theorem grammar_unreadable : Grammar .value unreadable := by
  have hdigits : Digits ['9', '9', '9'] := List.all_eq_true.1 (by decide)
  have hexponent : Exponent ['e', '9', '9', '9'] :=
    @Exponent.present 'e' [] _ (by decide) (by decide) hdigits (by decide)
  have hnumber : Numeral ['1', 'e', '9', '9', '9'] :=
    @Numeral.intro [] _ (by decide) (.intro (leading_digitsOf 1) .absent hexponent)
  have hstring : Grammar .value ['"', '\\', 'u', 'd', '8', '0', '0', '"'] :=
    .string (.codePoint (by simp [hexDigits]) .nil)
  have hblank : Blanks [' '] := List.forall_mem_singleton.2 (by decide)
  have hrest : Grammar (.rest .list) [',', '"', '\\', 'u', 'd', '8', '0', '0', '"', ']'] :=
    .more blanks_nil (.item blanks_nil) hstring (.last blanks_nil)
  exact Grammar.filled (Lead.item hblank) (.number hnumber) hrest

theorem checks_agree_and_reads_back_extreme :
    extreme.Fits ∧ extreme.weight.isFinite = true ∧
      readAll readFloat (bytesOfText (Json.ofFloat extreme.weight).text) = .ok extreme.weight ∧
      ofText extreme.toJson.text = .ok extreme ∧
      ofText (String.ofList (objectChars
        (("colours", unreadable) :: (extreme.members.tail.map spelled).reverse))) =
          .ok extreme := by
  have hfits : extreme.Fits := by
    refine ⟨by decide, fun seed hseed => ?_⟩
    cases hseed
    decide
  have hfinite : extreme.weight.isFinite = true := by decide
  have hback : readAll readFloat (bytesOfText (Json.ofFloat extreme.weight).text) =
      .ok extreme.weight := by
    have hoption : (readAll readFloat (bytesOfText (Json.ofFloat extreme.weight).text)).toOption =
        some extreme.weight := by decide +kernel
    cases hread : readAll readFloat (bytesOfText (Json.ofFloat extreme.weight).text) with
    | error e =>
      rw [hread] at hoption
      cases hoption
    | ok y =>
      rw [hread] at hoption
      exact congrArg Except.ok (Option.some.inj hoption)
  -- the first field holds a default
  have hdrop : Variant extreme (extreme.members.tail.map spelled) :=
    .drop (f := ("pruning", .bool false)) .written (by simp [members_eq, extreme])
      (by simp [members_eq, standard])
  have hkey : "colours" ∉ keys := by decide
  have hvariant := (hdrop.permute (List.reverse_perm _)).insert hkey grammar_unreadable
  obtain ⟨-, hreads⟩ := checks_agree_and_reads_back extreme
  obtain ⟨hwritten, hvariants⟩ := hreads hfits hfinite hback
  exact ⟨hfits, hfinite, hback, hwritten, hvariants _ hvariant⟩

end GameSearch.Config
