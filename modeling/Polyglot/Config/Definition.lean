import Polyglot.Chain.Extractors
import Polyglot.Chain.Editors
import Polyglot.Engine

/-!
# Configurations

A configuration defines chains and rules by name. A chain definition names its nested chains,
so a definition can be used in several places; an extractor or an editor is one of those at
hand, with its settings. The standard configuration knows pages with their scripts, style
sheets and inline styles, and one chain for each other language.
-/

set_option autoImplicit false

namespace Polyglot

/-- How the region of a nested chain is found. -/
inductive ExtractorDef where
  | htmlScript
  | htmlStyle
  | htmlAttribute (name : String)
  | kinds (kinds within : List String)
deriving DecidableEq, Repr

namespace ExtractorDef

/-- The type under which the extractor is configured. -/
def type : ExtractorDef → String
  | .htmlScript => "html-script"
  | .htmlStyle => "html-style"
  | .htmlAttribute _ => "html-attribute"
  | .kinds _ _ => "kinds"

/-- The extractor. -/
def build : ExtractorDef → Extractor
  | .htmlScript => Extractor.htmlScript
  | .htmlStyle => Extractor.htmlStyle
  | .htmlAttribute name => Extractor.htmlAttribute name
  | .kinds wanted within => Extractor.ofKinds wanted within

end ExtractorDef

/-- How the region of a chain is prepared. -/
inductive EditorDef where
  | stripCommentWrapper
  | wrap (before behind : String)
  | blankDelimited (opening closing : String)
deriving DecidableEq, Repr

namespace EditorDef

/-- The type under which the editor is configured. -/
def type : EditorDef → String
  | .stripCommentWrapper => "strip-comment-wrapper"
  | .wrap _ _ => "wrap"
  | .blankDelimited _ _ => "blank-delimited"

/-- The editor. -/
def build : EditorDef → Editor
  | .stripCommentWrapper => Editor.stripCommentWrapper
  | .wrap before behind => Editor.wrap (Bytes.ofString before) (Bytes.ofString behind)
  | .blankDelimited opening closing =>
    Editor.blankDelimited (Bytes.ofString opening) (Bytes.ofString closing)

/-- What the editor makes of a slice. -/
def editBy {m : Type → Type} [Monad m] (bounds : Bounds m) (slice : Bytes) :
    EditorDef → m (Except EditFailure Edit)
  | .stripCommentWrapper => Editor.stripBy bounds slice
  | .wrap before behind =>
    Editor.wrapBy bounds (Bytes.ofString before) (Bytes.ofString behind) slice
  | .blankDelimited opening closing =>
    Editor.blankBy bounds (Bytes.ofString opening) (Bytes.ofString closing) slice

end EditorDef

/-- A named chain. With extensions it is the root chain of the files that have one of them. -/
structure ChainDefinition where
  name : String
  entry : Language
  extensions : List String
  children : List String
  extract : Option ExtractorDef
  edit : Option EditorDef
deriving DecidableEq, Repr

/-- Whether an extension is one of those listed, in any case. -/
def listsExtension (extensions : List String) (ext : String) : Bool :=
  extensions.any fun known => Text.sameLetters known ext

namespace ChainDefinition

/-- Whether the chain is the root chain of files with an extension. -/
def handles (d : ChainDefinition) (ext : String) : Bool :=
  listsExtension d.extensions ext

end ChainDefinition

/-- A rule that reports every capture of a query. Files are parsed with a chain or with one
language; the query runs on the target language, by default the language of the file. -/
structure RuleDefinition where
  name : String
  description : Option String
  chain : Option String
  lang : Option Language
  target : Option Language
  query : String
  title : Option String
deriving DecidableEq, Repr

namespace RuleDefinition

/-- The title of the violations: as given, or the name of the rule. -/
def violationTitle (d : RuleDefinition) : String :=
  d.title.getD d.name

end RuleDefinition

/-- A configuration. -/
structure LintConfig where
  engine : EngineSettings
  chains : List ChainDefinition
  rules : List RuleDefinition
deriving DecidableEq, Repr

namespace LintConfig

/-- The root chain of files with some extensions. -/
def rootChain (name : String) (entry : Language) (extensions children : List String) :
    ChainDefinition :=
  ⟨name, entry, extensions, children, none, none⟩

/-- A chain that is nested in others. -/
def nestedChain (name : String) (entry : Language) (extract : ExtractorDef)
    (edit : EditorDef) : ChainDefinition :=
  ⟨name, entry, [], [], some extract, some edit⟩

/-- The chains that need no configuration. -/
def standard : LintConfig :=
  ⟨EngineSettings.standard,
    [rootChain "page" .html ["html", "htm", "xhtml"] ["page-script", "page-style", "inline-style"],
      nestedChain "page-script" .javaScript .htmlScript .stripCommentWrapper,
      nestedChain "page-style" .css .htmlStyle .stripCommentWrapper,
      nestedChain "inline-style" .css (.htmlAttribute "style") (.wrap "*\x7b" "\x7d"),
      rootChain "script" .javaScript ["js", "mjs", "cjs", "jsx"] [],
      rootChain "typescript" .typeScript ["ts", "mts", "cts"] [],
      rootChain "stylesheet" .css ["css"] [],
      rootChain "json" .json ["json"] [],
      rootChain "php" .php ["php", "phtml"] []],
    []⟩

end LintConfig

end Polyglot
