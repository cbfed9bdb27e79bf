import ComponentAnalysis.Compiler.Options
import ComponentAnalysis.Compiler.Recorder
import ComponentAnalysis.Style.Compile
import ComponentAnalysis.Style.Usage
import ComponentAnalysis.Proofs.Script.Program
import ComponentAnalysis.Proofs.Component.Completeness
import ComponentAnalysis.Proofs.Macro.Shadowing
import ComponentAnalysis.Proofs.Macro.Openness
import ComponentAnalysis.Proofs.Validation.Hoisting
import ComponentAnalysis.Proofs.Validation.SourceOrder
import ComponentAnalysis.Proofs.Validation.MacroCoverage
import ComponentAnalysis.Proofs.Validation.Composition
import ComponentAnalysis.Proofs.Validation.FileOrder
import ComponentAnalysis.Proofs.Compiler.Coherence
import ComponentAnalysis.Proofs.Compiler.Merging
import ComponentAnalysis.Proofs.Component.Classification
import ComponentAnalysis.Proofs.Component.Totality
import ComponentAnalysis.Proofs.Compiler.Analyzed
import ComponentAnalysis.Proofs.Component.Registration
import ComponentAnalysis.Proofs.Style.Precedence
import ComponentAnalysis.Proofs.Style.Registry
import ComponentAnalysis.Proofs.Style.Ownership
import ComponentAnalysis.Proofs.Style.Binding
import ComponentAnalysis.Proofs.Style.Cycles
import ComponentAnalysis.Proofs.Style.Tags
import ComponentAnalysis.Proofs.Style.Composition
import ComponentAnalysis.Proofs.Style.Scan
import ComponentAnalysis.Proofs.Style.Extraction
import ComponentAnalysis.Proofs.Style.Spelling
import ComponentAnalysis.Proofs.Text.Utf8
import ComponentAnalysis.Proofs.Component.Discovery
import ComponentAnalysis.Proofs.Component.PropNames
import ComponentAnalysis.Proofs.Digest.Polynomial
import ComponentAnalysis.Proofs.Source.LineTable
import ComponentAnalysis.Proofs.Tree.Forest
import ComponentAnalysis.Proofs.Macro.Resolution
import ComponentAnalysis.Proofs.Imports.Callees
import ComponentAnalysis.Proofs.Component.RefReadings
import ComponentAnalysis.Proofs.Component.MaybeRefs
import ComponentAnalysis.Proofs.Component.Rewrapping
import ComponentAnalysis.Proofs.Component.Parentheses
import ComponentAnalysis.Proofs.Component.OwnReturns
import ComponentAnalysis.Proofs.Component.ParameterProps
import ComponentAnalysis.Proofs.Validation.Interpolation
import ComponentAnalysis.Proofs.Validation.CallForms
import ComponentAnalysis.Proofs.Component.StaticValues
import ComponentAnalysis.Proofs.Component.Events
import ComponentAnalysis.Proofs.Component.TemplateMarks
import ComponentAnalysis.Proofs.Component.ImportedBindings
import ComponentAnalysis.Proofs.Macro.Bookkeeping
import ComponentAnalysis.Proofs.Validation.Marks
