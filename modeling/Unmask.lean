import Unmask.Binary64
import Unmask.CommandLine
import Unmask.CommandLine.Arguments
import Unmask.Decimal
import Unmask.Document
import Unmask.Document.JsonText
import Unmask.Document.YamlText
import Unmask.Json
import Unmask.Literal
import Unmask.Main
import Unmask.Name
import Unmask.Name.Lexicon
import Unmask.NameSupply
import Unmask.Proofs.Accounting
import Unmask.Proofs.Boundaries
import Unmask.Proofs.ByOffset.Access
import Unmask.Proofs.ByOffset.Commands
import Unmask.Proofs.ByOffset.Names
import Unmask.Proofs.ByOffset.Numbers
import Unmask.Proofs.ByOffset.Run
import Unmask.Proofs.ByOffset.Tokens
import Unmask.Proofs.CommandGrammar
import Unmask.Proofs.CommandSearch
import Unmask.Proofs.Correspondence
import Unmask.Proofs.Cut
import Unmask.Proofs.DecodedNumbers
import Unmask.Proofs.FunctionRoles
import Unmask.Proofs.Layering
import Unmask.Proofs.LayersByKey
import Unmask.Proofs.LetterNumerals
import Unmask.Proofs.LetterOrder
import Unmask.Proofs.LiteralBands
import Unmask.Proofs.LiteralValue
import Unmask.Proofs.NameDraws
import Unmask.Proofs.NameStreams
import Unmask.Proofs.ProtectedNames
import Unmask.Proofs.RenamingHistory
import Unmask.Proofs.RenamingSteps
import Unmask.Proofs.Renumbering
import Unmask.Proofs.ReplacedTokens
import Unmask.Proofs.Report
import Unmask.Proofs.Respelling
import Unmask.Proofs.Separation
import Unmask.Proofs.SiteNames
import Unmask.Proofs.SuspectTokens
import Unmask.Proofs.TokenGrammar
import Unmask.Proofs.Unescaping
import Unmask.Proofs.Walk
import Unmask.Renaming
import Unmask.RunError
import Unmask.Service
import Unmask.Service.Description
import Unmask.Service.MediaType
import Unmask.Service.Submission
import Unmask.Settings
import Unmask.Settings.File
import Unmask.Settings.Ini
import Unmask.Settings.KeyPath
import Unmask.Settings.OptionsForm
import Unmask.Settings.Toml
import Unmask.Settings.Toml.Moment
import Unmask.Settings.Toml.Section
import Unmask.Settings.Toml.Token
import Unmask.Settings.Value
import Unmask.Settings.Yaml
import Unmask.Settings.Yaml.Cursor
import Unmask.Settings.Yaml.Node
import Unmask.Settings.Yaml.Scalar
import Unmask.Settings.Yaml.Token
import Unmask.ShellCommand
import Unmask.Site
import Unmask.Suspects
import Unmask.Tally
import Unmask.Text.Blank
import Unmask.Text.Scan
import Unmask.Text.WordChar
import Unmask.Token
import Unmask.Unmasking
