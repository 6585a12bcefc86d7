import Highlight.Font
import Highlight.Proofs.Alignment
import Highlight.Proofs.BlockFailures
import Highlight.Proofs.CarriedStates
import Highlight.Proofs.ClusterRuns
import Highlight.Proofs.ColorMixing
import Highlight.Proofs.Dialects
import Highlight.Proofs.GalleryRuns
import Highlight.Proofs.Hashbangs
import Highlight.Proofs.JsonDocuments
import Highlight.Proofs.JsonTokens
import Highlight.Proofs.LastPainted
import Highlight.Proofs.LongestOperators
import Highlight.Proofs.NameRoles
import Highlight.Proofs.PrivateNames
import Highlight.Proofs.ScriptNumbers
import Highlight.Proofs.SettingsFile
import Highlight.Proofs.TextCuts
import Highlight.Proofs.ThemeFiles
import Highlight.Proofs.TransitionRuns
import Highlight.Proofs.WholeGraphemes
