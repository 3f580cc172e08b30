import DeskCalculator.CommandLine.Run
import DeskCalculator.Proofs.CommandLine.Layers

/-! What a call that evaluates prints and how it exits, for every configuration that may stand below
its options, and whatever reads the configuration and prints the response. -/
namespace DeskCalculator

namespace CommandLine

/-! ### What is evaluated -/

inductive Input
  | expression (text : String)
  | keys (presses : List String)

namespace Input

def command (o : Options) : Input → Command
  | expression text => .eval o text
  | keys presses => .keys o presses

def text (mode : Mode) : Input → String
  | expression text => text
  | keys presses => (Entered.ofKeys mode presses).expression

def blank : Input → Except Fault Evaluation
  | expression _ => .error .expressionRequired
  | keys _ => .ok Evaluation.blank

/-- What an input comes to at a precision, which may be out of range, and a rounding. -/
def outcome (o : Options) (digits : Nat) (rounding : RoundingMode) (input : Input) :
    Except Fault Evaluation :=
  if Text.IsBlankText (input.text o.mode) then input.blank
  else do
    let precision ← Precision.ofNat digits
    let tokens ← o.mode.toPostfix (input.text o.mode)
    evaluate ⟨precision, rounding⟩ o.trace tokens

variable {o : Options} {input : Input} {lower : Overrides} {settings : Settings}

theorem answer_expression (h : lower.resolve {} = .ok settings) (o : Options) (text : String) :
    (⟨settings⟩ : Calculator).answer ⟨text, o.mode, o.trace, o.overrides⟩ =
      (expression text).outcome o ((o.precision <|> lower.precision).getD 15)
        ((o.rounding <|> lower.rounding).getD .toEven) := by
  have hresolve : o.overrides.resolve settings =
      (Precision.ofNat ((o.precision <|> lower.precision).getD 15)).map fun p =>
        ⟨p, (o.rounding <|> lower.rounding).getD .toEven⟩ := Overrides.resolve_layers h
  unfold Calculator.answer outcome
  by_cases hblank : Text.IsBlankText text
  · exact (if_pos hblank).trans (if_pos hblank).symm
  · refine (if_neg hblank).trans (Eq.trans ?_ (if_neg hblank).symm)
    rw [hresolve]
    cases Precision.ofNat ((o.precision <|> lower.precision).getD 15) <;> rfl

theorem answerKeys_keys (h : lower.resolve {} = .ok settings) (o : Options)
    (presses : List String) :
    (⟨settings⟩ : Calculator).answerKeys ⟨presses, o.mode, o.trace, o.overrides⟩ =
      (keys presses).outcome o ((o.precision <|> lower.precision).getD 15)
        ((o.rounding <|> lower.rounding).getD .toEven) := by
  unfold Calculator.answerKeys
  by_cases hblank : Text.IsBlankText (Entered.ofKeys o.mode presses).expression
  · exact (if_pos hblank).trans (if_pos hblank).symm
  · refine (if_neg hblank).trans ((answer_expression h o _).trans ?_)
    exact (if_neg hblank).trans (if_neg hblank).symm

theorem exists_perform_eq (h : lower.resolve {} = .ok settings) (formats : Formats) (o : Options)
    (input : Input) :
    ∃ events, perform formats settings (input.command o) =
      ofOutcome formats o events (input.outcome o ((o.precision <|> lower.precision).getD 15)
        ((o.rounding <|> lower.rounding).getD .toEven)) := by
  cases input with
  | expression text => exact ⟨_, congrArg (ofOutcome formats o _) (answer_expression h o text)⟩
  | keys presses => exact ⟨_, congrArg (ofOutcome formats o _) (answerKeys_keys h o presses)⟩

theorem outcome_of_out_of_range {digits : Nat} (hblank : ¬ Text.IsBlankText (input.text o.mode))
    (h : ¬ (1 ≤ digits ∧ digits ≤ 28)) (rounding : RoundingMode) :
    input.outcome o digits rounding = .error (.precisionOutOfRange digits) := by
  rw [outcome, if_neg hblank, Precision.ofNat, dif_neg h]
  rfl

end Input

/-! ### The report -/

def Formats.PrintsAll (formats : Formats) : Prop :=
  ∀ r, ∃ text, formats.printResponse r = some text

/-- How an outcome is reported: a fault by its exit code and nothing printed, a value in a line,
after those of its trace if they are asked for, or as the result in a response. -/
def Report.Shows (r : Report) (formats : Formats) (o : Options) : Except Fault Evaluation → Prop
  | .error fault =>
    r.out = "" ∧
      (fault.kind = .divideByZero → r.exitCode = 3) ∧
      (fault.kind = .validation → r.exitCode = 4) ∧
      (fault.kind ∈ [.tokenization, .conversion, .evaluation, .unsupportedOperator] →
        r.exitCode = 2)
  | .ok e =>
    r.exitCode = 0 ∧
      (o.json = false →
        r.out = String.join (((if o.trace then e.trace else []) ++ [e.text]).map (· ++ "\n"))) ∧
      (o.json = true → ∃ text,
        formats.printResponse ⟨e.text, o.mode, e.postfixTokens.map Token.text, e.trace⟩ =
          some text ∧
        r.out = text ++ "\n")

variable {formats : Formats} {files : Files} {path : Option String} {o : Options}

theorem shows_of_ofOutcome (hprints : formats.PrintsAll) {r : Report}
    {events : List Journal.Event} {outcome : Except Fault Evaluation}
    (hcode : r.exitCode = (ofOutcome formats o events outcome).exitCode)
    (hout : r.out = (ofOutcome formats o events outcome).out) : r.Shows formats o outcome := by
  cases outcome with
  | error fault =>
    have hcategory : r.exitCode = fault.kind.category.exitCode := hcode
    refine ⟨hout, ?_, ?_, ?_⟩
    · intro hkind
      rw [hcategory, hkind]
      rfl
    · intro hkind
      rw [hcategory, hkind]
      rfl
    · intro hkind
      rw [hcategory]
      generalize fault.kind = kind at hkind
      cases kind <;> first | rfl | simp at hkind
  | ok e =>
    obtain ⟨text, htext⟩ := hprints (.ofEvaluation o.mode e)
    cases hjson : o.json with
    | false =>
      have hpresent : present formats o e =
          some (printLines ((if o.trace then e.trace else []) ++ [e.text])) :=
        if_neg (by simp [hjson])
      simp only [ofOutcome, hpresent] at hcode hout
      exact ⟨hcode, fun _ => hout, fun htrue => by simp [hjson] at htrue⟩
    | true =>
      have hpresent : present formats o e = some (text ++ "\n") := by
        rw [present, if_pos hjson, htext, Option.map_some]
      simp only [ofOutcome, hpresent] at hcode hout
      exact ⟨hcode, fun hfalse => by simp [hjson] at hfalse, fun _ => ⟨text, htext, hout⟩⟩

theorem runInvocation_of_fails (h : Files.Fails formats files path) (filter : Option String)
    (command : Command) :
    (runInvocation formats files filter (.run path command)).exitCode = 1 ∧
      (runInvocation formats files filter (.run path command)).out = "" := by
  obtain ⟨fault, hfault⟩ := Files.exists_fault_of_fails h
  simp [runInvocation, hfault, failure]

theorem runInvocation_of_gives {c : Configuration} {settings : Settings}
    (h : Files.Gives formats files path c) (hsettings : c.resolved = .ok settings)
    (filter : Option String) (command : Command) :
    (runInvocation formats files filter (.run path command)).exitCode =
        (perform formats settings command).exitCode ∧
      (runInvocation formats files filter (.run path command)).out =
        (perform formats settings command).out := by
  have hconfiguration := Files.configuration_eq_ok_iff.2 h
  simp [runInvocation, hconfiguration, hsettings]

/-- How a call that evaluates ends. Either its configuration cannot be used, and whatever its
options are it prints nothing and exits with 1; or there is one, and the call reports what its input
comes to at the precision and the rounding of its options, below them of the configuration, and
below that the standard ones, each on its own. -/
theorem report_of_evaluation (hprints : formats.PrintsAll) (files : Files)
    (filter path : Option String) (o : Options) (input : Input) :
    let report := runInvocation formats files filter (.run path (input.command o))
    (Files.Fails formats files path ∨ ∃ c, Files.Gives formats files path c) ∧
    (Files.Fails formats files path → report.exitCode = 1 ∧ report.out = "") ∧
    ∀ c, Files.Gives formats files path c →
      report.Shows formats o
        (input.outcome o ((o.precision <|> c.settings.precision).getD 15)
          ((o.rounding <|> c.settings.rounding).getD .toEven)) ∧
      (¬ Text.IsBlankText (input.text o.mode) →
        ∀ digits, o.precision = some digits → ¬ (1 ≤ digits ∧ digits ≤ 28) →
          report.exitCode = 4 ∧ report.out = "") := by
  intro report
  refine ⟨Files.exists_gives_or_fails formats files path, ?_, ?_⟩
  · intro hfails
    exact runInvocation_of_fails hfails filter (input.command o)
  · intro c hgives
    obtain ⟨settings, hsettings⟩ := hgives.exists_resolved
    obtain ⟨hcode, hout⟩ := runInvocation_of_gives hgives hsettings filter (input.command o)
    obtain ⟨events, hperform⟩ := Input.exists_perform_eq hsettings formats o input
    rw [hperform] at hcode hout
    have hshows := shows_of_ofOutcome hprints hcode hout
    refine ⟨hshows, ?_⟩
    intro hblank digits hdigits hrange
    have hasked : (o.precision <|> c.settings.precision).getD 15 = digits := by simp [hdigits]
    rw [hasked, Input.outcome_of_out_of_range hblank hrange] at hshows
    obtain ⟨hnothing, -, hvalidation, -⟩ := hshows
    exact ⟨hvalidation rfl, hnothing⟩

theorem Formats.standard_printsAll : Formats.standard.PrintsAll :=
  fun r => ⟨r.toJson, rfl⟩

def twoConfigurations : Files where
  given path :=
    if path = "fine.toml" then some "[settings]\nprecision = 2\nrounding = \"ToZero\"\n"
    else if path = "forty.toml" then some "[settings]\nprecision = 40\n"
    else none
  standard := .empty

theorem gives_twoConfigurations :
    Files.Gives .standard twoConfigurations (some "fine.toml")
      ⟨⟨some 2, some .toZero⟩, "warn"⟩ := by
  refine .inr ⟨_, rfl, by decide +kernel, fun digits hdigits => ?_⟩
  obtain rfl := Option.some.inj hdigits
  decide

theorem fails_twoConfigurations :
    Files.Fails .standard twoConfigurations (some "forty.toml") := by
  refine .inr ⟨_, rfl, fun c hc hrange => ?_⟩
  have hread : Formats.standard.readConfiguration "[settings]\nprecision = 40\n" =
      some ⟨⟨some 40, none⟩, "warn"⟩ := by decide +kernel
  obtain rfl := Option.some.inj (hread.symm.trans hc)
  exact absurd (hrange 40 rfl) (by decide)

theorem report_of_evaluation_two_configurations :
    let report (path : Option String) (o : Options) (input : Input) : Report :=
      runInvocation .standard twoConfigurations none (.run path (input.command o))
    let fine := report (some "fine.toml")
    ((fine {} (.expression "2/3")).exitCode = 0 ∧
      (fine {} (.expression "2/3")).out = "0.66\n") ∧
    (fine ⟨false, true, false, some 4, none⟩ (.keys ["2", "/", "3", "="])).out =
      "push 2\npush 3\napply / -> 0.6666\n0.6666\n" ∧
    (fine ⟨true, false, true, none, some .toEven⟩ (.expression "2 3 /")).out =
      "\x7b\n  \"result\": \"0.67\",\n  \"mode\": \"Rpn\",\n  \"rpn\": [\n    \"2\",\n" ++
        "    \"3\",\n    \"/\"\n  ],\n  \"trace\": []\n\x7d\n" ∧
    (report none {} (.expression "2/3")).out = "0.666666666666667\n" ∧
    (fine {} (.expression "2/(3")).exitCode = 2 ∧
    (fine {} (.expression "2/0")).exitCode = 3 ∧
    (fine {} (.expression " ")).exitCode = 4 ∧
    (fine ⟨false, false, false, some 0, none⟩ (.expression "2/(3")).exitCode = 4 ∧
    (let forty := report (some "forty.toml") ⟨false, false, false, some 4, none⟩ (.expression "2/3")
     forty.exitCode = 1 ∧ forty.out = "") ∧
    (report (some "absent.toml") {} (.expression "2/3")).exitCode = 1 := by
  intro report fine
  let tokens : List Token :=
    [.number ⟨2, "2"⟩, .number ⟨3, "3"⟩, .operator (.binary .divide)]
  have hreport (path : Option String) (o : Options) (input : Input) :=
    report_of_evaluation Formats.standard_printsAll twoConfigurations none path o input
  have hfine (o : Options) (input : Input) (outcome : Except Fault Evaluation)
      (houtcome : input.outcome o ((o.precision <|> some 2).getD 15)
        ((o.rounding <|> some RoundingMode.toZero).getD .toEven) = outcome) :
      (fine o input).Shows .standard o outcome := by
    obtain ⟨-, -, hgiven⟩ := hreport (some "fine.toml") o input
    exact houtcome ▸ (hgiven _ gives_twoConfigurations).1
  refine ⟨?_, ?_, ?_, ?_, ?_, ?_, ?_, ?_, ?_, ?_⟩
  · obtain ⟨hcode, hplain, -⟩ := hfine {} (.expression "2/3") (.ok ⟨33 / 50, 2, tokens, []⟩)
      (by decide +kernel)
    exact ⟨hcode, (hplain rfl).trans (by decide +kernel)⟩
  · obtain ⟨-, hplain, -⟩ := hfine ⟨false, true, false, some 4, none⟩ (.keys ["2", "/", "3", "="])
      (.ok ⟨3333 / 5000, 4, tokens, ["push 2", "push 3", "apply / -> 0.6666"]⟩) (by decide +kernel)
    exact (hplain rfl).trans (by decide +kernel)
  · obtain ⟨-, -, hjson⟩ := hfine ⟨true, false, true, none, some .toEven⟩ (.expression "2 3 /")
      (.ok ⟨67 / 100, 2, tokens, []⟩) (by decide +kernel)
    obtain ⟨text, htext, hout⟩ := hjson rfl
    obtain rfl := Option.some.inj htext
    exact hout.trans (by decide +kernel)
  · obtain ⟨-, -, hstandard⟩ := hreport none {} (.expression "2/3")
    obtain ⟨hshows, -⟩ := hstandard {} (.inl ⟨rfl, rfl⟩)
    have houtcome : (Input.expression "2/3").outcome {} 15 .toEven =
        .ok ⟨666666666666667 / 10 ^ 15, 15, tokens, []⟩ := by decide +kernel
    obtain ⟨-, hplain, -⟩ := houtcome ▸ hshows
    exact (hplain rfl).trans (by decide +kernel)
  · obtain ⟨-, -, -, htwo⟩ := hfine {} (.expression "2/(3")
      (.error (.scannedParens .unclosedOpening)) (by decide +kernel)
    exact htwo (by decide)
  · obtain ⟨-, hthree, -⟩ := hfine {} (.expression "2/0") (.error .divisionByZero)
      (by decide +kernel)
    exact hthree rfl
  · obtain ⟨-, -, hfour, -⟩ := hfine {} (.expression " ") (.error .expressionRequired)
      (by decide +kernel)
    exact hfour rfl
  · obtain ⟨-, -, hfour, -⟩ := hfine ⟨false, false, false, some 0, none⟩ (.expression "2/(3")
      (.error (.precisionOutOfRange 0)) (by decide +kernel)
    exact hfour rfl
  · obtain ⟨-, hfails, -⟩ := hreport (some "forty.toml") ⟨false, false, false, some 4, none⟩
      (.expression "2/3")
    exact hfails fails_twoConfigurations
  · obtain ⟨-, hfails, -⟩ := hreport (some "absent.toml") {} (.expression "2/3")
    exact (hfails (.inl rfl)).1

end CommandLine

end DeskCalculator
